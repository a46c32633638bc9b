import Combinatory.Reduction

/-!
# The leftmost outermost strategy

What a step does is defined here once more, without any table of settled applications: the rule of
the head fires if it has enough arguments, else the head takes a step, else the first argument that
has one does (`leftmost`). A term that has no step is idle, whatever the rules and the store: every
head in it waits for more arguments, and every name in it that can be reached waits too.
-/

namespace Combinatory

namespace Term

/-! ### Applications of a term -/

mutual

/-- The applications that are reached through heads and arguments, by their identities. -/
def nodes : Term → List Nat
  | app n h as => n :: (nodes h ++ nodesAll as)
  | _ => []

/-- The applications that are reached in a list of terms. -/
def nodesAll : List Term → List Nat
  | [] => []
  | a :: as => nodes a ++ nodesAll as

end

/-! ### Steps without a table -/

mutual

/-- One step, or `none` if the term is in normal form. -/
def leftmost (R : Rules) : Term → Engine (Option Stepped)
  | named info d => pure (if info.isOpen then some ⟨d, 0⟩ else none)
  | app _ h as => do
    match ← reduce R h as with
    | some t => return some ⟨t, 1⟩
    | none =>
      match ← leftmost R h with
      | some h' => return some ⟨← apply R h'.term as, h'.cost⟩
      | none =>
        match ← leftmostAmong R as with
        | some as' => return some ⟨← apply R h as'.terms, as'.cost⟩
        | none => return none
  | _ => pure none

/-- One step of the first term that has one. -/
def leftmostAmong (R : Rules) : List Term → Engine (Option SteppedAmong)
  | [] => pure none
  | a :: as => do
    match ← leftmost R a with
    | some a' => return some ⟨a'.term :: as, a'.cost⟩
    | none =>
      match ← leftmostAmong R as with
      | some as' => return some ⟨a :: as'.terms, as'.cost⟩
      | none => return none

end

/-! ### Idle terms -/

/-- Whether a head has no rule for so few arguments. -/
def Waits : Term → List Term → Prop
  | native c, as => as.length < c.arity
  | lam _ _, as => as = []
  | named info _, as => ∃ n, info.arity.bound? = some n ∧ (as.length : Int) < n
  | _, _ => True

mutual

/-- Whether every head waits and no name gives way to its definition. -/
def Idle : Term → Prop
  | named info _ => info.isOpen = false
  | app _ h as => Waits h as ∧ Idle h ∧ IdleAll as
  | _ => True

/-- Whether all terms of a list are idle. -/
def IdleAll : List Term → Prop
  | [] => True
  | a :: as => Idle a ∧ IdleAll as

end

variable {R : Rules} {s s' : Store}

/-- A computation that gives something does not give nothing. -/
private theorem some_ne_none {α β : Type} {x : Engine α} {f : α → β}
    (h : (do return some (f (← x))) s = EStateM.Result.ok none s') : False := by
  obtain ⟨a, s₁, -, h⟩ := Engine.bind_ok_iff.mp h
  cases h

/-- A combinator with too few arguments has no result. -/
theorem contract_of_lt {c : Native} {as : List Term} (h : as.length < c.arity) :
    c.contract R as = pure none := by
  unfold Native.contract
  split <;> simp_all [Native.arity] <;> omega

/-- Only too few arguments keep a combinator from having a result. -/
theorem lt_of_contract {c : Native} {as : List Term} (h : c.contract R as s = .ok none s') :
    as.length < c.arity := by
  unfold Native.contract at h
  split at h
  case h_1 | h_2 | h_10 => cases h
  case h_3 | h_4 | h_5 | h_6 | h_7 =>
    simp only [← bind_assoc] at h
    exact (some_ne_none h).elim
  case h_8 | h_9 => exact (some_ne_none h).elim
  case h_11 =>
    split at h
    · assumption
    · exact (some_ne_none h).elim
  case h_12 =>
    -- no rule matches, so some argument is missing
    cases c <;> rcases as with _ | ⟨a, _ | ⟨b, _ | ⟨d, as⟩⟩⟩ <;> grind [Native.arity]

/-- A head that waits does not fire. -/
theorem reduce_of_waits {h : Term} {as : List Term} (hw : Waits h as) :
    reduce R h as = pure none := by
  unfold reduce
  split
  · rw [contract_of_lt hw, pure_bind]
  · cases hw
    rfl
  · obtain ⟨n, hn, hlt⟩ := hw
    simp only [Engine.bound, hn, pure_bind, if_pos hlt]
  · rfl

/-- A head that does not fire waits. -/
theorem waits_of_reduce {h : Term} {as : List Term} (hr : reduce R h as s = .ok none s') :
    Waits h as := by
  unfold reduce at hr
  split at hr
  · obtain ⟨o, s₁, ho, hr⟩ := Engine.bind_ok_iff.mp hr
    cases o with
    | none => exact lt_of_contract ho
    | some t =>
      cases t with
      | foreign x => cases hr
      | _ => exact (some_ne_none hr).elim
  · cases as with
    | nil => rfl
    | cons a as =>
      simp only [← bind_assoc] at hr
      exact (some_ne_none hr).elim
  · next info d =>
    obtain ⟨n, s₁, hn, hr⟩ := Engine.bind_ok_iff.mp hr
    split at hr
    · next hlt =>
      unfold Engine.bound at hn
      cases hb : info.arity.bound? with
      | some m =>
        rw [hb] at hn
        cases hn
        exact ⟨_, hb, hlt⟩
      | none =>
        rw [hb] at hn
        cases hn
    · exact (some_ne_none hr).elim
  · next hnative hlam hnamed =>
    cases h with
    | native c => exact absurd rfl (hnative c)
    | lam v b => exact absurd rfl (hlam v b)
    | named info d => exact absurd rfl (hnamed info d)
    | _ => trivial

mutual

/-- An idle term has no step, and looking for one changes nothing. -/
theorem leftmost_of_idle (R : Rules) : ∀ {t : Term}, Idle t → leftmost R t = pure none
  | named info d, h => by
    have closed : info.isOpen = false := h
    rw [leftmost, closed]
    rfl
  | app n hd as, ⟨hw, hh, has⟩ => by
    rw [leftmost, reduce_of_waits hw, leftmost_of_idle R hh, leftmostAmong_of_idle R has]
    rfl
  | var v, _ => by rw [leftmost] <;> simp
  | native c, _ => by rw [leftmost] <;> simp
  | foreign x, _ => by rw [leftmost] <;> simp
  | lam v b, _ => by rw [leftmost] <;> simp

theorem leftmostAmong_of_idle (R : Rules) :
    ∀ {as : List Term}, IdleAll as → leftmostAmong R as = pure none
  | [], _ => by rw [leftmostAmong]
  | a :: as, ⟨ha, has⟩ => by
    rw [leftmostAmong, leftmost_of_idle R ha, leftmostAmong_of_idle R has]
    rfl

end

mutual

/-- A term without a step is idle. -/
theorem idle_of_leftmost : ∀ {t : Term} {s s' : Store},
    leftmost R t s = .ok none s' → Idle t
  | named info d, s, s', h => by
    unfold leftmost at h
    split at h
    · cases h
    · next hopen => exact Bool.eq_false_iff.mpr hopen
  | app n hd as, s, s', h => by
    unfold leftmost at h
    obtain ⟨o, s₁, hr, h⟩ := Engine.bind_ok_iff.mp h
    cases o with
    | some t => cases h
    | none =>
      obtain ⟨o, s₂, hh, h⟩ := Engine.bind_ok_iff.mp h
      cases o with
      | some h' => exact (some_ne_none h).elim
      | none =>
        obtain ⟨o, s₃, has, h⟩ := Engine.bind_ok_iff.mp h
        cases o with
        | some as' => exact (some_ne_none h).elim
        | none => exact ⟨waits_of_reduce hr, idle_of_leftmost hh, idleAll_of_leftmostAmong has⟩
  | var v, _, _, _ => trivial
  | native c, _, _, _ => trivial
  | foreign x, _, _, _ => trivial
  | lam v b, _, _, _ => trivial

theorem idleAll_of_leftmostAmong : ∀ {as : List Term} {s s' : Store},
    leftmostAmong R as s = .ok none s' → IdleAll as
  | [], _, _, _ => trivial
  | a :: as, s, s', h => by
    unfold leftmostAmong at h
    obtain ⟨o, s₁, ha, h⟩ := Engine.bind_ok_iff.mp h
    cases o with
    | some a' => cases h
    | none =>
      obtain ⟨o, s₂, has, h⟩ := Engine.bind_ok_iff.mp h
      cases o with
      | some as' => cases h
      | none => exact ⟨idle_of_leftmost ha, idleAll_of_leftmostAmong has⟩

end

/-- A term has no step exactly when it is idle. -/
theorem leftmost_eq_none_iff {t : Term} :
    leftmost R t s = .ok none s' ↔ Idle t ∧ s = s' := by
  constructor
  · intro h
    have idle := idle_of_leftmost h
    rw [leftmost_of_idle R idle] at h
    exact ⟨idle, (Engine.pure_ok_iff.mp h).2⟩
  · rintro ⟨h, rfl⟩
    rw [leftmost_of_idle R h]
    rfl

/-! ### Steps with and without a table -/

/-- Whether an application is known to be in normal form, if there is a table. -/
def known (tabled : Bool) (n : Nat) : Engine Bool :=
  if tabled then Engine.isSettled n else pure false

/-- Remembers that an application is in normal form, if there is a table. -/
def note (tabled : Bool) (n : Nat) : Engine Unit :=
  if tabled then Engine.settle n else pure ()

mutual

/-- One step, which may use the table of settled applications or not. -/
def scan (R : Rules) (tabled : Bool) : Term → Engine (Option Stepped)
  | named info d => pure (if info.isOpen then some ⟨d, 0⟩ else none)
  | app n h as => do
    if ← known tabled n then return none
    match ← reduce R h as with
    | some t => return some ⟨t, 1⟩
    | none =>
      match ← scan R tabled h with
      | some h' => return some ⟨← apply R h'.term as, h'.cost⟩
      | none =>
        match ← scanAmong R tabled as with
        | some as' => return some ⟨← apply R h as'.terms, as'.cost⟩
        | none =>
          note tabled n
          return none
  | _ => pure none

/-- One step of the first term that has one. -/
def scanAmong (R : Rules) (tabled : Bool) : List Term → Engine (Option SteppedAmong)
  | [] => pure none
  | a :: as => do
    match ← scan R tabled a with
    | some a' => return some ⟨a'.term :: as, a'.cost⟩
    | none =>
      match ← scanAmong R tabled as with
      | some as' => return some ⟨a :: as'.terms, as'.cost⟩
      | none => return none

end

mutual

/-- A step uses the table. -/
theorem scan_true (R : Rules) : ∀ t : Term, scan R true t = step R t
  | app n h as => by
    rw [scan, step, scan_true R h, scanAmong_true R as]
    rfl
  | named info d => by rw [scan, step]
  | var v => by rw [scan, step] <;> simp
  | native c => by rw [scan, step] <;> simp
  | foreign x => by rw [scan, step] <;> simp
  | lam v b => by rw [scan, step] <;> simp

theorem scanAmong_true (R : Rules) : ∀ as : List Term, scanAmong R true as = stepAmong R as
  | [] => by rw [scanAmong, stepAmong]
  | a :: as => by
    rw [scanAmong, scan_true R a, scanAmong_true R as]
    exact (stepAmong.eq_2 R a as).symm

end

mutual

/-- The strategy does not use it. -/
theorem scan_false (R : Rules) : ∀ t : Term, scan R false t = leftmost R t
  | app n h as => by
    rw [scan, leftmost, scan_false R h, scanAmong_false R as]
    rfl
  | named info d => by rw [scan, leftmost]
  | var v => by rw [scan, leftmost] <;> simp
  | native c => by rw [scan, leftmost] <;> simp
  | foreign x => by rw [scan, leftmost] <;> simp
  | lam v b => by rw [scan, leftmost] <;> simp

theorem scanAmong_false (R : Rules) :
    ∀ as : List Term, scanAmong R false as = leftmostAmong R as
  | [] => by rw [scanAmong, leftmostAmong]
  | a :: as => by
    rw [scanAmong, leftmostAmong, scan_false R a, scanAmong_false R as]

end

end Term

end Combinatory
