import Combinatory.Construction
import Combinatory.Equality
import Combinatory.Naming
import Combinatory.Proofs.Renaming

/-!
# Equality is sameness of skeletons

Regular terms are equal, as the engine has it, exactly when they have the same skeleton, and asking
never fails (`gives_equal`). What carries the proof below lambdas is that the bodies of two lambdas
have the same skeleton exactly when they do with one new variable in the places of theirs
(`sameSkeleton_lam_iff`). All terms that are put together by the constructors are regular, so
equality is an equivalence between them (`Assembled.equal_iff_sameSkeleton`).
-/

namespace Combinatory

open Engine (Ensures Gives)
open Function (update)

namespace Term

variable {R : Rules} {U : Prop} {V : Set Variable} {s s' : Store} {e : Places} {t u : Term}
  {v w p : Variable}

/-! ### Looking through names -/

/-- A name that is not terminal has the skeleton of its definition. -/
@[simp] theorem skeleton_unwrapped (e : Places) : ∀ t : Term, t.unwrapped.skeleton e = t.skeleton e
  | named info d => by
    rw [unwrapped, skeleton]
    split
    · next h => rw [skeleton, if_pos h]
    · exact skeleton_unwrapped e d
  | var _ | native _ | foreign _ | lam _ _ | app _ _ _ => rfl

/-- Only terminal names are left. -/
theorem isTerminal_of_unwrapped {info : NameInfo} {d : Term} :
    ∀ {t : Term}, t.unwrapped = named info d → info.isTerminal = true
  | named i _, h => by
    rw [unwrapped] at h
    split at h
    · next hi =>
      injection h with h
      exact h ▸ hi
    · exact isTerminal_of_unwrapped h
  | var _, h | native _, h | foreign _, h | lam _ _, h | app _ _ _, h => by
    rw [unwrapped] at h
    · cases h
    · rintro _ _ ⟨⟩

theorem Regular.unwrapped : ∀ {t : Term}, t.Regular U V s → t.unwrapped.Regular U V s
  | named info d, ht => by
    rw [Term.unwrapped]
    split
    · exact ht
    · exact Regular.unwrapped ht.2.2
  | var _, ht | native _, ht | foreign _, ht | lam _ _, ht | app _ _ _, ht => ht

/-! ### Bodies of lambdas -/

/-- The place of a variable taken by the innermost lambda. -/
private def intoBound (p : Variable) : Place → Place
  | .bound i => .bound (i + 1)
  | .free x => if x = p then .bound 0 else .free x

/-- The innermost lambda's place taken by a variable. -/
private def outOfBound (p : Variable) : Place → Place
  | .bound 0 => .free p
  | .bound (i + 1) => .bound i
  | .free x => .free x

/-- A body with a new variable in the place of its own. -/
private theorem skeleton_probe (v p : Variable) (b : Term) :
    b.skeleton (update .free v (.free p)) =
      (b.skeleton (Places.bind .free v)).move (outOfBound p) := by
  rw [← skeleton_comp]
  refine skeleton_congr fun x _ => ?_
  by_cases hx : x = v
  · simp [hx, outOfBound]
  · simp [hx, Places.bind_of_ne, Place.lift, outOfBound]

/-- The body that a new variable was put into. -/
private theorem skeleton_unprobe {b : Term} (hp : b.occurs p = false) (v : Variable) :
    b.skeleton (Places.bind .free v) =
      (b.skeleton (update .free v (.free p))).move (intoBound p) := by
  rw [← skeleton_comp]
  refine skeleton_congr fun x hx => ?_
  by_cases hxv : x = v
  · simp [hxv, intoBound]
  · have hxp : x ≠ p := by
      rintro rfl
      simp [hp] at hx
    simp [hxv, hxp, Places.bind_of_ne, Place.lift, intoBound]

/-- Lambdas have the same skeleton exactly when their bodies do with a new variable in the places of
their own. -/
theorem sameSkeleton_lam_iff {b c b' c' : Term} (hpb : b.occurs p = false)
    (hpc : c.occurs p = false) (hb : ∀ e, b'.skeleton e = b.skeleton (update e v (e p)))
    (hc : ∀ e, c'.skeleton e = c.skeleton (update e w (e p))) :
    SameSkeleton (lam v b) (lam w c) ↔ SameSkeleton b' c' := by
  rw [SameSkeleton, SameSkeleton, skeleton, skeleton, hb, hc, Skeleton.lam.injEq]
  constructor
  · intro h
    rw [skeleton_probe, skeleton_probe, h]
  · intro h
    rw [skeleton_unprobe hpb, skeleton_unprobe hpc, h]

/-! ### Equality -/

/-- Whether lambdas of bodies in which lambdas nest less than `depth` deep are told apart exactly
when they have different skeletons. -/
def DecidesBelow (U : Prop) (under : Variable → Term → Variable → Term → Engine Bool)
    (depth : Nat) : Prop :=
  ∀ (s : Store) (v : Variable) (b : Term) (w : Variable) (c : Term), (lam v b).Regular U ∅ s →
    (lam w c).Regular U ∅ s → b.lambdaDepth < depth →
    Gives (under v b w c) s fun r _ => r = true ↔ SameSkeleton (lam v b) (lam w c)

mutual

/-- Equality decides whether two regular terms have the same skeleton. -/
theorem gives_equalBy {under : Variable → Term → Variable → Term → Engine Bool} {depth : Nat}
    (hunder : DecidesBelow U under depth) : ∀ (t u : Term) {s : Store}, t.Regular U ∅ s →
      u.Regular U ∅ s → t.lambdaDepth ≤ depth →
      Gives (equalBy under t u) s fun r _ => r = true ↔ SameSkeleton t u
  | t, u, s, ht, hu, hd => by
    unfold equalBy
    split
    · next heq =>
      subst heq
      exact .pure (by simp [SameSkeleton])
    · have hu' := hu.unwrapped
      have terminal := @isTerminal_of_unwrapped (t := u)
      have same := skeleton_unwrapped .free u
      rw [SameSkeleton, ← same]
      generalize u.unwrapped = x at hu' terminal same ⊢
      cases t with
      | foreign x => exact ht.elim
      | var v =>
        refine .pure ?_
        cases x with
        | named info d => simp [skeleton, terminal _ _ rfl]
        | _ => simp [skeleton]
      | native c =>
        refine .pure ?_
        cases x with
        | named info d => simp [skeleton, terminal _ _ rfl]
        | _ => simp [skeleton]
      | named info d =>
        dsimp only
        split
        · next hinfo =>
          refine .pure ?_
          cases x with
          | named info' d' => simp [skeleton, hinfo, terminal _ _ rfl]
          | _ => simp [skeleton, hinfo]
        · next hinfo =>
          apply (gives_equalBy hunder d u ht.2.2 hu (by rwa [lambdaDepth] at hd)).imp
          intro r s' _ hr
          rw [hr, same, SameSkeleton, skeleton, if_neg hinfo]
      | lam v b =>
        cases x with
        | lam w c =>
          dsimp only
          split
          · next heq => exact .pure (by simp [heq])
          · rw [lambdaDepth] at hd
            exact hunder s v b w c ht hu' hd
        | named info d => exact .pure (by simp [skeleton, terminal _ _ rfl])
        | _ => exact .pure (by simp [skeleton])
      | app n f as =>
        cases x with
        | app m g bs =>
          obtain ⟨-, hf, has⟩ := ht
          obtain ⟨-, hg, hbs⟩ := hu'
          rw [lambdaDepth] at hd
          have parts : (app n f as).skeleton .free = (app m g bs).skeleton .free ↔
              SameSkeleton f g ∧ skeletons .free as = skeletons .free bs := by
            rw [skeleton, skeleton, Skeleton.app.injEq]
            rfl
          rw [parts]
          dsimp only
          split
          · next hlen =>
            refine .pure ?_
            simp only [Bool.false_eq_true, false_iff, not_and]
            intro _ h
            exact hlen (by simpa using congrArg List.length h)
          · apply (gives_equalBy hunder f g hf hg (by omega)).bind
            rintro (_ | _) s₁ hs hr
            · refine .pure ?_
              simp_all
            · apply (gives_equalAllBy hunder as bs (has.later hs) (hbs.later hs) (by omega)).imp
              intro r s₂ _ hr'
              rw [hr']
              simp_all
        | named info d => exact .pure (by simp [skeleton, terminal _ _ rfl])
        | _ => exact .pure (by simp [skeleton])

theorem gives_equalAllBy {under : Variable → Term → Variable → Term → Engine Bool} {depth : Nat}
    (hunder : DecidesBelow U under depth) : ∀ (ts us : List Term) {s : Store}, RegularAll U ∅ s ts →
      RegularAll U ∅ s us → lambdaDepthOfAll ts ≤ depth →
      Gives (equalAllBy under ts us) s fun r _ =>
        r = true ↔ skeletons .free ts = skeletons .free us
  | [], [], s, _, _, _ => by
    unfold equalAllBy
    exact .pure (by simp)
  | [], _ :: _, s, _, _, _ => by
    unfold equalAllBy
    exact .pure (by simp [skeletons])
  | _ :: _, [], s, _, _, _ => by
    unfold equalAllBy
    exact .pure (by simp [skeletons])
  | t :: ts, u :: us, s, hts, hus, hd => by
    rw [lambdaDepthOfAll] at hd
    unfold equalAllBy
    rw [skeletons, skeletons, List.cons.injEq]
    apply (gives_equalBy hunder t u hts.1 hus.1 (by omega)).bind
    rintro (_ | _) s₁ hs hr
    · refine .pure ?_
      simp_all [SameSkeleton]
    · apply (gives_equalAllBy hunder ts us (hts.2.later hs) (hus.2.later hs) (by omega)).imp
      intro r s₂ _ hr'
      rw [hr']
      simp_all [SameSkeleton]

end

theorem decidesBelow_equalWithin (depth : Nat) : DecidesBelow U (equalWithin R depth) depth := by
  induction depth with
  | zero => exact fun _ _ _ _ _ _ _ h => (Nat.not_lt_zero _ h).elim
  | succ depth ih =>
    intro s v b w c hb hc hd
    unfold equalWithin
    apply (Engine.gives_freshVariable "t" s).bind
    rintro p s₁ hs₁ ⟨hfresh, hp⟩
    apply (gives_instantiate_var hb.2 hfresh hs₁ hp).bind
    intro b' s₂ hs₂ hb'
    apply (gives_instantiate_var hc.2 hfresh (Store.le_trans hs₁ hs₂) (hp.mono hs₂)).bind
    intro c' s₃ hs₃ hc'
    have shallow : b'.lambdaDepth ≤ depth := by
      rw [hb'.depth]
      omega
    rw [sameSkeleton_lam_iff (hb.2.occurs_eq_false hfresh) (hc.2.occurs_eq_false hfresh)
      hb'.skeleton hc'.skeleton]
    exact gives_equalBy ih b' c' ((hb'.regular.later hs₃).anti (Set.empty_subset _))
      (hc'.regular.anti (Set.empty_subset _)) shallow

/-- Regular terms are equal exactly when they have the same skeleton. -/
theorem gives_equal (ht : t.Regular U ∅ s) (hu : u.Regular U ∅ s) :
    Gives (equal R t u) s fun r _ => r = true ↔ SameSkeleton t u := by
  have decides : DecidesBelow U (equalUnder R) t.lambdaDepth := by
    intro s v b w c hb hc _
    refine decidesBelow_equalWithin _ s v b w c hb hc ?_
    unfold rebuildDepth
    omega
  exact gives_equalBy decides t u ht hu (Nat.le_refl _)

end Term

end Combinatory
