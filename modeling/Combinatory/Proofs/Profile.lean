import Combinatory.Proofs.Settled.Strategy
import Combinatory.Proofs.Skeleton

/-!
# Profiles of terms

The profile of a term is its skeleton with every name left closed, terminal or not. It tells all
that a step looks at before it opens a name or puts anything in place of a variable: whether the
term is idle (`Idle.of_profile`), and whether it awaits arguments (`awaitsArgs_of_profile`). The
definitions of names are kept as they are, wherever the free variables of the term are placed.
-/

namespace Combinatory

namespace Term

mutual

/-- The skeleton of a term with its names left closed, whose free variables stand at some places. -/
def profile (e : Places) : Term → Skeleton
  | var v => .var (e v)
  | native c => .native c
  | foreign x => .foreign x
  | named info d => .named info d
  | lam v b => .lam (profile (e.bind v) b)
  | app _ h as => .app (profile e h) (profiles e as)

/-- The profiles of the terms of a list. -/
def profiles (e : Places) : List Term → List Skeleton
  | [] => []
  | a :: as => profile e a :: profiles e as

end

variable {e e' : Places} {t u : Term} {v : Variable}

theorem profiles_eq_map (e : Places) (ts : List Term) : profiles e ts = ts.map (profile e) := by
  induction ts with
  | nil => rfl
  | cons t ts ih => rw [profiles, ih, List.map_cons]

/-- Profiles are taken part by part. -/
theorem profiles_append (e : Places) (ts us : List Term) :
    profiles e (ts ++ us) = profiles e ts ++ profiles e us := by
  simp only [profiles_eq_map, List.map_append]

@[simp] theorem length_profiles (e : Places) (ts : List Term) :
    (profiles e ts).length = ts.length := by
  rw [profiles_eq_map, List.length_map]

mutual

/-- Only the places of the variables that occur matter. -/
theorem profile_congr : ∀ {t : Term} {e e' : Places}, (∀ v, t.occurs v = true → e v = e' v) →
    t.profile e = t.profile e'
  | var v, _, _, h => by
    rw [profile, profile, h v (by simp [occurs])]
  | native _, _, _, _ => rfl
  | foreign _, _, _, _ => rfl
  | named _ _, _, _, _ => rfl
  | lam v b, _, _, h => by
    rw [profile, profile, profile_congr]
    intro w hw
    by_cases hwv : w = v
    · simp [hwv]
    · rw [Places.bind_of_ne hwv, Places.bind_of_ne hwv, h w]
      simp [occurs, hw, Ne.symm hwv]
  | app _ hd as, _, _, h => by
    rw [profile, profile, profile_congr fun v hv => h v (by simp [occurs, hv]),
      profiles_congr fun v hv => h v (by simp [occurs, hv])]

theorem profiles_congr : ∀ {ts : List Term} {e e' : Places},
    (∀ v, occursAny v ts = true → e v = e' v) → profiles e ts = profiles e' ts
  | [], _, _, _ => rfl
  | _ :: _, _, _, h => by
    rw [profiles, profiles, profile_congr fun v hv => h v (by simp [occursAny, hv]),
      profiles_congr fun v hv => h v (by simp [occursAny, hv])]

end

/-! ### What the profile tells -/

/-- Terms of one profile await arguments together. -/
theorem awaitsArgs_of_profile : ∀ {t u : Term} {e e' : Places}, t.profile e = u.profile e' →
    t.awaitsArgs = u.awaitsArgs
  | app _ h as, app _ g bs, _, _, same => by
    rw [profile, profile, Skeleton.app.injEq] at same
    rw [awaitsArgs, awaitsArgs, awaitsArgs_of_profile same.1]
  | var _, u, _, _, same => by cases u <;> simp_all [profile, awaitsArgs]
  | native _, u, _, _, same => by cases u <;> simp_all [profile, awaitsArgs]
  | foreign _, u, _, _, same => by cases u <;> simp_all [profile, awaitsArgs]
  | named _ _, u, _, _, same => by cases u <;> simp_all [profile, awaitsArgs]
  | lam _ _, u, _, _, same => by cases u <;> simp_all [profile, awaitsArgs]

/-- Heads of one profile wait for arguments together. -/
private theorem Waits.of_profile {h g : Term} {as bs : List Term}
    (head : h.profile e = g.profile e') (length : as.length = bs.length) (hw : Waits h as) :
    Waits g bs := by
  cases h <;> cases g <;> simp_all [profile, Waits, ← List.length_eq_zero_iff]

mutual

/-- A term of the profile of an idle one is idle. -/
theorem Idle.of_profile : ∀ {t u : Term} {e e' : Places}, t.profile e = u.profile e' → t.Idle →
    u.Idle
  | app _ h as, app _ g bs, _, _, same, idle => by
    rw [profile, profile, Skeleton.app.injEq] at same
    have length := congrArg List.length same.2
    rw [length_profiles, length_profiles] at length
    exact ⟨idle.1.of_profile same.1 length, Idle.of_profile same.1 idle.2.1,
      IdleAll.of_profiles same.2 idle.2.2⟩
  | named info d, named info' d', _, _, same, idle => by
    injection same with hinfo
    exact hinfo ▸ idle
  | var _, u, _, _, same, _ => by cases u <;> trivial
  | native _, u, _, _, same, _ => by cases u <;> trivial
  | foreign _, u, _, _, same, _ => by cases u <;> trivial
  | lam _ _, u, _, _, same, _ => by cases u <;> trivial

theorem IdleAll.of_profiles : ∀ {ts us : List Term} {e e' : Places},
    profiles e ts = profiles e' us → IdleAll ts → IdleAll us
  | [], [], _, _, _, _ => trivial
  | t :: ts, u :: us, _, _, same, idle => by
    rw [profiles, profiles, List.cons.injEq] at same
    exact ⟨Idle.of_profile same.1 idle.1, IdleAll.of_profiles same.2 idle.2⟩

end

/-- Only a lambda has the profile of one. -/
theorem exists_lam_of_profile {x : Skeleton} (h : t.profile e = .lam x) :
    ∃ v b, t = lam v b ∧ b.profile (e.bind v) = x := by
  cases t with
  | lam v b =>
    injection h with h
    exact ⟨v, b, rfl, h⟩
  | _ => cases h

end Term

/-! ### Names to open -/

namespace Skeleton

mutual

/-- An upper bound for the number of names that could still be opened. -/
def pending : Skeleton → Nat
  | var _ => 0
  | native _ => 0
  | foreign _ => 0
  | named _ d => d.pending + 1
  | lam b => pending b
  | app h as => pending h + pendingAll as

/-- The bound for some skeletons. -/
def pendingAll : List Skeleton → Nat
  | [] => 0
  | a :: as => pending a + pendingAll as

end

end Skeleton

namespace Term

mutual

/-- The profile has the names of the term. -/
theorem pending_profile : ∀ (t : Term) (e : Places), (t.profile e).pending = t.pending
  | var _, _ => rfl
  | native _, _ => rfl
  | foreign _, _ => rfl
  | named _ _, _ => rfl
  | lam _ b, _ => pending_profile b _
  | app _ h as, e => by
    rw [profile, Skeleton.pending, pending_profile h e, pendingAll_profiles as e, pending]

theorem pendingAll_profiles : ∀ (ts : List Term) (e : Places),
    Skeleton.pendingAll (profiles e ts) = pendingAll ts
  | [], _ => rfl
  | t :: ts, e => by
    rw [profiles, Skeleton.pendingAll, pending_profile t e, pendingAll_profiles ts e, pendingAll]

end

end Term

end Combinatory
