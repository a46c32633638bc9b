import Combinatory.Proofs.Containment
import Combinatory.Proofs.Profile

/-!
# Arguments given in groups

It does not matter in which groups a term is given its arguments. A hook may put anything in place
of a head and its first argument, and what it puts there may have a hook again. But hooks are asked
only until an application is made, which from there on is extended, and they are asked the same
however the arguments are grouped. So two groupings come to the same, except that the application in
the end is not the same object (`Term.agree_apply_append`). Hooks that give the same structure each
time make applying do so (`Rules.Deterministic.agree_apply`), and so the groupings may be tried at
different times. The last argument of an application is a group of its own: applying the front of
the binary view to it makes the application once more (`Term.Regular.apply_halves`).
-/

namespace Combinatory

open Engine (Ensures)

/-! ### Agreement -/

namespace Engine

variable {α β γ δ : Type} {P : α → β → Prop} {Q : γ → δ → Prop}

/-- Two computations both have a result, and the results belong together, or both fail. -/
inductive Agree (P : α → β → Prop) :
    EStateM.Result Failure Store α → EStateM.Result Failure Store β → Prop where
  | ok {a : α} {b : β} {s s' : Store} (h : P a b) : Agree P (.ok a s) (.ok b s')
  | error {e e' : Failure} {s s' : Store} : Agree P (.error e s) (.error e' s')

namespace Agree

/-- What belongs to itself agrees with itself. -/
protected theorem refl {P : α → α → Prop} (hP : ∀ a, P a a)
    (r : EStateM.Result Failure Store α) : Agree P r r := by
  cases r with
  | ok a s => exact .ok (hP a)
  | error e s => exact .error

/-- What agrees with the same agrees. -/
theorem trans {Q : β → γ → Prop} {S : α → γ → Prop} {r : EStateM.Result Failure Store α}
    {r' : EStateM.Result Failure Store β} {r'' : EStateM.Result Failure Store γ} (h : Agree P r r')
    (h' : Agree Q r' r'') (hS : ∀ a b c, P a b → Q b c → S a c) : Agree S r r'' := by
  cases h with
  | ok hp =>
    cases h' with
    | ok hq => exact .ok (hS _ _ _ hp hq)
  | error =>
    cases h' with
    | error => exact .error

/-- Sequences agree if their parts do. -/
theorem bind {x : Engine α} {y : Engine β} {f : α → Engine γ} {g : β → Engine δ} {s s' : Store}
    (h : Agree P (x s) (y s'))
    (hf : ∀ a s₁ b s₂, x s = .ok a s₁ → y s' = .ok b s₂ → P a b → Agree Q (f a s₁) (g b s₂)) :
    Agree Q ((x >>= f) s) ((y >>= g) s') := by
  generalize hx : x s = r at h
  generalize hy : y s' = r' at h
  cases h with
  | ok hp =>
    rw [bind_of_ok hx, bind_of_ok hy]
    exact hf _ _ _ _ hx hy hp
  | error =>
    rw [bind_of_error hx, bind_of_error hy]
    exact .error

end Agree

end Engine

open Engine (Agree)

/-! ### The same structure -/

namespace Term

/-- One term is the other one, or the same application made once more. -/
inductive Remade : Term → Term → Prop where
  | refl (t : Term) : Remade t t
  | app (m n : Nat) (h : Term) (as : List Term) : Remade (app m h as) (app n h as)

/-- Terms that differ at most in the identities of applications and in their bound variables. A name
is the same only as itself. -/
def SameStructure (t u : Term) : Prop := t.profile .free = u.profile .free

variable {R : Rules} {t u h g : Term} {as bs : List Term} {s s₁ s₂ : Store}

/-- An application that was made once more has the same structure. -/
theorem Remade.sameStructure (ht : t.Remade u) : t.SameStructure u := by
  cases ht <;> rfl

/-- What has the structure of an application is one. -/
theorem SameStructure.exists_app {n : Nat} (same : (app n h as).SameStructure u) :
    ∃ m g bs, u = app m g bs ∧ h.SameStructure g ∧ profiles .free as = profiles .free bs := by
  cases u with
  | app m g bs =>
    rw [SameStructure, profile, profile, Skeleton.app.injEq] at same
    exact ⟨m, g, bs, rfl, same⟩
  | _ => cases same

/-- What has the structure of a combinator is the combinator. -/
theorem SameStructure.eq_native {c : Native} (same : (native c).SameStructure u) :
    u = native c := by
  cases u with
  | native d =>
    injection same with hcd
    rw [hcd]
  | _ => cases same

/-- Applications of the same structure, part by part, have the same structure. -/
private theorem agree_node (same : h.SameStructure g)
    (sames : profiles .free as = profiles .free bs) :
    Agree SameStructure (Engine.node h as s₁) (Engine.node g bs s₂) :=
  .ok (congrArg₂ Skeleton.app same sames)

/-! ### One group after another -/

/-- A new application is extended by the next group. -/
private theorem agree_node_extend (R : Rules) (h : Term) (as bs : List Term) (s : Store) :
    Agree Remade ((do let u ← Engine.node h as; extend R u bs : Engine Term) s)
      (Engine.node h (as ++ bs) s) := by
  cases bs with
  | nil =>
    rw [List.append_nil]
    exact .ok (.refl _)
  | cons b bs => exact .ok (.app _ _ _ _)

/-- To apply to one group of arguments and then to another is to apply to all of them. -/
private theorem agree_extend_append (R : Rules) (bs : List Term) : ∀ (as : List Term) (t : Term)
    (s : Store), Agree Remade ((do let u ← extend R t as; extend R u bs : Engine Term) s)
      (extend R t (as ++ bs) s)
  | [], t, s => by
    rw [extend, pure_bind, List.nil_append]
    exact .refl .refl _
  | a :: as, t, s => by
    rw [List.cons_append]
    cases t with
    | app n h cs =>
      rw [extend_app, extend_app, ← List.cons_append, ← List.append_assoc]
      exact agree_node_extend R h _ bs s
    | native c =>
      -- the hook is asked once on either side, before any application is made
      rw [extend, extend, bind_assoc]
      cases hr : c.replacement R a s with
      | error e s₁ =>
        rw [Engine.bind_of_error hr, Engine.bind_of_error hr]
        exact .error
      | ok o s₁ =>
        rw [Engine.bind_of_ok hr, Engine.bind_of_ok hr]
        cases o with
        | some r => exact agree_extend_append R bs as r s₁
        | none => exact agree_node_extend R (native c) (a :: as) bs s₁
    | _ =>
      simp only [extend]
      exact agree_node_extend R _ (a :: as) bs s

/-- Arguments may be given in two groups or all at once. -/
theorem agree_apply_append (R : Rules) (t : Term) (as bs : List Term) (s : Store) :
    Agree Remade ((do let u ← t.apply R as; u.apply R bs : Engine Term) s)
      (t.apply R (as ++ bs) s) := by
  have first : firstLiteral (as ++ bs) = (firstLiteral as).or (firstLiteral bs) :=
    List.findSome?_append
  cases ha : firstLiteral as with
  | some l =>
    rw [apply, apply, first, ha]
    exact .error
  | none =>
    rw [ha, Option.none_or] at first
    cases hb : firstLiteral bs with
    | some l =>
      -- whatever becomes of the first group, the second one is refused
      have refused (u : Term) : u.apply R bs = throw (.applyToNonTerm u l) := by rw [apply, hb]
      rw [apply.eq_1 R t (as ++ bs), first, hb]
      cases hu : t.apply R as s with
      | ok u s₁ =>
        rw [Engine.bind_of_ok hu, refused]
        exact .error
      | error e s₁ =>
        rw [Engine.bind_of_error hu]
        exact .error
    | none =>
      simp only [apply_eq_extend R _ ha, apply_eq_extend R _ hb,
        apply_eq_extend R _ (first.trans hb)]
      exact agree_extend_append R bs as t s

end Term

/-! ### One time and another -/

/-- From a moment on, what a hook puts in place of a head and a term of a list has the same
structure whenever the hook is asked, or the hook always fails. It takes no identity back. -/
structure Rules.Deterministic (R : Rules) (s : Store) (as : List Term) : Prop where
  replacement : ∀ u, ∀ a ∈ as, ∀ s₁ s₂, s ≤ s₁ → s ≤ s₂ →
    Agree (Option.Rel Term.SameStructure) (R.replacement u a s₁) (R.replacement u a s₂)
  later : ∀ u, ∀ a ∈ as, ∀ s₁, s ≤ s₁ → Ensures (R.replacement u a) s₁ fun _ _ => True

/-- What a combinator puts in place of itself and a first argument is what a hook of the user does,
or does not depend on the store. -/
private theorem Native.replacement_cases (R : Rules) (c : Native) (a : Term) :
    (∃ u, c.replacement R a = R.replacement u a) ∨ (∃ o, c.replacement R a = pure o) ∨
      ∃ e, c.replacement R a = throw e := by
  unfold replacement
  split
  · split
    · split
      · exact .inr (.inl ⟨_, rfl⟩)
      · exact .inr (.inr ⟨_, rfl⟩)
    · exact .inr (.inl ⟨_, rfl⟩)
  · exact .inr (.inr ⟨_, rfl⟩)
  · next u =>
    split
    · exact .inl ⟨u, rfl⟩
    · exact .inr (.inl ⟨_, rfl⟩)
  · exact .inr (.inl ⟨_, rfl⟩)

namespace Rules.Deterministic

open Term

variable {R : Rules} {s s₁ s₂ : Store} {a : Term} {as : List Term}

/-- Fewer terms are asked for. -/
private theorem tail (hR : R.Deterministic s (a :: as)) : R.Deterministic s as where
  replacement u b hb := hR.replacement u b (.tail a hb)
  later u b hb := hR.later u b (.tail a hb)

/-- What any combinator puts in place of itself and a term of the list has the same structure. -/
private theorem agree_replacement (hR : R.Deterministic s as) (ha : a ∈ as) (hs₁ : s ≤ s₁)
    (hs₂ : s ≤ s₂) (c : Native) :
    Agree (Option.Rel SameStructure) (c.replacement R a s₁) (c.replacement R a s₂) := by
  obtain ⟨u, hu⟩ | ⟨o, ho⟩ | ⟨e, he⟩ := c.replacement_cases R a
  · rw [hu]
    exact hR.replacement u a ha s₁ s₂ hs₁ hs₂
  · rw [ho]
    refine .ok ?_
    cases o with
    | none => exact .none
    | some r => exact .some rfl
  · rw [he]
    exact .error

/-- No combinator takes an identity back. -/
private theorem ensures_replacement (hR : R.Deterministic s as) (ha : a ∈ as) (hs : s ≤ s₁)
    (c : Native) : Ensures (c.replacement R a) s₁ fun _ _ => True := by
  obtain ⟨u, hu⟩ | ⟨o, ho⟩ | ⟨e, he⟩ := c.replacement_cases R a
  · rw [hu]
    exact hR.later u a ha s₁ hs
  · rw [ho]
    exact .pure trivial
  · rw [he]
    exact .throw

/-- Heads of the same structure come to terms of the same structure. By induction on the arguments:
what two hooks put in place of the first one may be different objects, but has the same structure
again. -/
private theorem agree_extend : ∀ {as : List Term} {t u : Term} {s₁ s₂ : Store},
    R.Deterministic s as → s ≤ s₁ → s ≤ s₂ → t.SameStructure u →
      Agree SameStructure (extend R t as s₁) (extend R u as s₂)
  | [], t, u, s₁, s₂, _, _, _, same => by
    rw [extend, extend]
    exact .ok same
  | a :: as, t, u, s₁, s₂, hR, hs₁, hs₂, same => by
    cases t with
    | app n h bs =>
      obtain ⟨m, g, cs, rfl, heads, args⟩ := same.exists_app
      rw [extend_app, extend_app]
      exact agree_node heads (by rw [profiles_append, profiles_append, args])
    | native c =>
      obtain rfl := same.eq_native
      rw [extend]
      refine (hR.agree_replacement (.head as) hs₁ hs₂ c).bind ?_
      intro o s₃ o' s₄ ho ho' replaced
      have later₃ := Store.le_trans hs₁ (hR.ensures_replacement (.head as) hs₁ c o s₃ ho).1
      have later₄ := Store.le_trans hs₂ (hR.ensures_replacement (.head as) hs₂ c o' s₄ ho').1
      cases replaced with
      | none => exact agree_node same rfl
      | some replaced => exact agree_extend hR.tail later₃ later₄ replaced
    | _ =>
      -- all other terms are put at the head as they are
      have stays : extend R u (a :: as) = Engine.node u (a :: as) := by
        cases u with
        | app m g cs => cases same
        | native d => cases same
        | _ => simp only [extend]
      rw [stays]
      simp only [extend]
      exact agree_node same rfl

/-- Applying gives the same structure each time. -/
theorem agree_apply (hR : R.Deterministic s as) (hs₁ : s ≤ s₁) (hs₂ : s ≤ s₂) (t : Term) :
    Agree SameStructure (t.apply R as s₁) (t.apply R as s₂) := by
  rw [apply]
  cases firstLiteral as with
  | some l => exact .error
  | none => exact hR.agree_extend hs₁ hs₂ rfl

end Rules.Deterministic

/-! ### The last argument -/

namespace Term

variable {U : Prop} {V : Set Variable} {s : Store} {n : Nat} {h : Term} {as : List Term}

/-- A regular application has a binary view. To apply the front to the last argument, whenever that
is done, is to make the application once more. -/
theorem Regular.apply_halves (hr : (app n h as).Regular U V s) (R : Rules) (s₁ : Store) :
    ∃ front last s₂, (app n h as).halves R s₁ = .ok (front, last) s₂ ∧
      ∀ s₃, ∃ m s₄, front.apply R [last] s₃ = .ok (app m h as) s₄ := by
  obtain ⟨bs, last, rfl⟩ := (List.eq_nil_or_concat' as).resolve_left hr.1.nonempty
  have single := (regularAll_append.mp hr.2.2).2.firstLiteral_eq_none
  rw [halves, split_of_regular hr]
  by_cases hnil : bs = []
  · subst hnil
    rw [List.nil_append] at hr ⊢
    refine ⟨h, last, s₁, rfl, fun s₃ => ?_⟩
    rw [apply_eq_extend R h single, extend_of_stands hr.1 hr.2.1]
    exact ⟨_, _, rfl⟩
  · rw [if_neg hnil]
    refine ⟨app s₁.nextNode h bs, last, _, rfl, fun s₃ => ?_⟩
    rw [apply_eq_extend R _ single, extend_app]
    exact ⟨_, _, rfl⟩

/-- It does not matter in which groups a term is given its arguments, be there none in a group, and
whatever hooks do: either way comes to the same object or to the same application made anew, or both
ways fail. If hooks are deterministic for the arguments, this is so up to the structure even when
the two ways are taken at different times. And the binary view of an application that was put
together always exists, and applying its front to its last argument makes the same application. -/
theorem regroups_apply (R : Rules) :
    (∀ (t : Term) (as bs : List Term) (s : Store),
      Agree Remade ((do let u ← t.apply R as; u.apply R bs : Engine Term) s)
        (t.apply R (as ++ bs) s)) ∧
    (∀ (t : Term) (as bs : List Term) (s s₁ s₂ : Store), R.Deterministic s (as ++ bs) →
      s ≤ s₁ → s ≤ s₂ →
        Agree SameStructure ((do let u ← t.apply R as; u.apply R bs : Engine Term) s₁)
          (t.apply R (as ++ bs) s₂)) ∧
    ∀ (s : Store) (ts : List Term), Assembled s ts → ∀ n h as, app n h as ∈ ts → ∀ s₁,
      ∃ front last s₂, (app n h as).halves R s₁ = .ok (front, last) s₂ ∧
        ∀ s₃, ∃ m s₄, front.apply R [last] s₃ = .ok (app m h as) s₄ := by
  refine ⟨agree_apply_append R, fun t as bs s s₁ s₂ hR hs₁ hs₂ => ?_,
    fun s ts hts n h as ht s₁ => (hts.regular ht).apply_halves R s₁⟩
  refine (agree_apply_append R t as bs s₁).trans (hR.agree_apply hs₁ hs₂ t) ?_
  intro u v w remade same
  exact remade.sameStructure.trans same

end Term

/-! ### A hook that takes arguments one after another -/

namespace Taking

/-- Variables that were asked for. -/
def x : Variable := ⟨"x", 1⟩

def y : Variable := ⟨"y", 2⟩

/-- A combinator with a hook. -/
def taker : Term := .native (.user ⟨0, "take", 1, .null, true, Nat.one_pos⟩)

/-- The hook drops a variable and keeps the combinator. It makes the successor of the combinator and
`K`, and of the combinator and `S` a new application, `K S`. -/
def rules : Rules where
  replacement u a :=
    match a with
    | .var _ => pure (some (.native (.user u)))
    | .native .K => pure (some (.native .successor))
    | .native .S => do return some (← Engine.node (.native .K) [.native .S])
    | _ => pure none
  contract _ _ := throw .tooDeep
  evaluate _ := throw .tooDeep
  hookless := false
  replacement_none h := absurd h Bool.false_ne_true

/-- The application `K S` is new each time, and has the same structure each time. -/
theorem deterministic (s : Store) (as : List Term) : rules.Deterministic s as where
  replacement u a _ s₁ s₂ _ _ := by
    unfold rules
    dsimp only
    split
    · exact .ok (.some rfl)
    · exact .ok (.some rfl)
    · exact .ok (.some rfl)
    · exact .ok .none
  later u a _ s₁ _ := by
    unfold rules
    dsimp only
    split
    · exact .pure trivial
    · exact .pure trivial
    · exact (Engine.ensures_node _ _ s₁).bind fun _ _ _ _ => .pure trivial
    · exact .pure trivial

/-- The successor of one variable applied to the other, `+ x y`. -/
def sum : Term := .app 0 (.native .successor) [.var x, .var y]

theorem assembled : Assembled ⟨3, 1, ∅⟩ [sum, .native .successor, .var y, .var x] := by
  have minted : Assembled ⟨3, 0, ∅⟩ [.native .successor, .var y, .var x] :=
    .native (.mint (.mint .start rfl) rfl) fun _ => rfl
  have applied : (Term.native .successor).apply rules [.var x, .var y] ⟨3, 0, ∅⟩ =
      .ok sum ⟨3, 1, ∅⟩ := rfl
  exact .apply minted (by simp) (by simp) applied

/-- All arguments at once: `x` is dropped, `K` makes the successor, and that makes `5` of `4`. -/
theorem apply_taker : taker.apply rules [.var x, .native .K, .numeral 4, .var y] {} =
    .ok (.app 0 (.numeral 5) [.var y]) { nextNode := 1 } := by
  have short : 4 + 1 < Native.numeralBound := by decide +kernel
  rw [Term.apply_eq_extend rules taker rfl]
  simp [taker, rules, short, Term.extend, Native.replacement, Engine.node]

theorem halves_sum : sum.halves rules ⟨3, 1, ∅⟩ =
    .ok (.app 1 (.native .successor) [.var x], .var y) ⟨3, 2, ∅⟩ := rfl

end Taking

/-- The arguments `x`, `K`, `4` and `y` are taken alike in two groups and all at once. If `S` comes
after `x`, the two ways make an application `K S y` each, at different times. And the successor of
`x`, applied to `y`, is made once more from its halves. -/
theorem regroups_apply_taking :
    Taking.taker.apply Taking.rules [.var Taking.x, .native .K, .numeral 4, .var Taking.y] {} =
        .ok (.app 0 (.numeral 5) [.var Taking.y]) { nextNode := 1 } ∧
      (∃ u s, (do
          let u ← Taking.taker.apply Taking.rules [.var Taking.x, .native .K]
          u.apply Taking.rules [.numeral 4, .var Taking.y] : Engine Term) {} = .ok u s ∧
        u.Remade (.app 0 (.numeral 5) [.var Taking.y])) ∧
      Taking.rules.Deterministic {} [.var Taking.x, .native .S, .var Taking.y] ∧
      Agree Term.SameStructure
        ((do
          let u ← Taking.taker.apply Taking.rules [.var Taking.x, .native .S]
          u.apply Taking.rules [.var Taking.y] : Engine Term) {})
        (Taking.taker.apply Taking.rules [.var Taking.x, .native .S, .var Taking.y] ⟨3, 7, ∅⟩) ∧
      Assembled ⟨3, 1, ∅⟩ [Taking.sum, .native .successor, .var Taking.y, .var Taking.x] ∧
      ∃ m s, (Term.app 1 (.native .successor) [.var Taking.x]).apply Taking.rules
        [.var Taking.y] ⟨3, 2, ∅⟩ =
          .ok (.app m (.native .successor) [.var Taking.x, .var Taking.y]) s := by
  obtain ⟨grouped, later, undone⟩ := Term.regroups_apply Taking.rules
  have deterministic := Taking.deterministic {} [.var Taking.x, .native .S, .var Taking.y]
  refine ⟨Taking.apply_taker, ?_, deterministic, ?_, Taking.assembled, ?_⟩
  · have agree := grouped Taking.taker [.var Taking.x, .native .K] [.numeral 4, .var Taking.y] {}
    rw [List.cons_append, List.cons_append, List.nil_append, Taking.apply_taker] at agree
    generalize (do
      let u ← Taking.taker.apply Taking.rules [.var Taking.x, .native .K]
      u.apply Taking.rules [.numeral 4, .var Taking.y] : Engine Term) {} = r at agree ⊢
    cases agree with
    | ok remade => exact ⟨_, _, rfl, remade⟩
  · exact later Taking.taker [.var Taking.x, .native .S] [.var Taking.y] {} {} ⟨3, 7, ∅⟩
      deterministic (Store.le_refl _) (by decide)
  · obtain ⟨front, last, s₂, hsplit, again⟩ := undone _ _ Taking.assembled 0 (.native .successor)
      [.var Taking.x, .var Taking.y] (.head _) ⟨3, 1, ∅⟩
    rw [← Taking.sum, Taking.halves_sum] at hsplit
    cases hsplit
    exact again _

end Combinatory
