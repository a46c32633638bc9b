import Combinatory.Proofs.Making

/-!
# Identities that are given out later

What the engine computes does not depend on how many identities it has given out before. A
renumbering keeps the identities from before a moment and shifts all later ones. Over a store that
has given out more, and remembers the same apart from that, a renumbered computation has the
renumbered result, or both fail (`Renumbered`).
-/

namespace Combinatory

/-- Identities below a first one are kept, all others are shifted. -/
structure Renumbering where
  firstVariable : Int
  variableShift : Nat
  firstNode : Nat
  nodeShift : Nat

namespace Renumbering

/-- The variable with its identity renumbered. -/
def onVariable (ρ : Renumbering) (v : Variable) : Variable :=
  if v.ident < ρ.firstVariable then v else ⟨v.name, v.ident + ρ.variableShift⟩

/-- The identity of an application, renumbered. -/
def onNode (ρ : Renumbering) (n : Nat) : Nat := if n < ρ.firstNode then n else n + ρ.nodeShift

variable {ρ : Renumbering} {s s' : Store} {v w : Variable} {m n : Nat}

theorem onVariable_of_lt (h : v.ident < ρ.firstVariable) : ρ.onVariable v = v := if_pos h

theorem onVariable_of_le (h : ρ.firstVariable ≤ v.ident) :
    ρ.onVariable v = ⟨v.name, v.ident + ρ.variableShift⟩ :=
  if_neg (Int.not_lt.mpr h)

theorem onNode_of_lt (h : n < ρ.firstNode) : ρ.onNode n = n := if_pos h

theorem onNode_of_le (h : ρ.firstNode ≤ n) : ρ.onNode n = n + ρ.nodeShift :=
  if_neg (Nat.not_lt.mpr h)

@[simp] theorem onVariable_name : (ρ.onVariable v).name = v.name := by
  unfold onVariable
  split <;> rfl

@[simp] theorem onVariable_inj : ρ.onVariable v = ρ.onVariable w ↔ v = w := by
  refine ⟨fun h => ?_, fun h => h ▸ rfl⟩
  obtain ⟨x, i⟩ := v
  obtain ⟨y, j⟩ := w
  unfold onVariable at h
  dsimp only at h
  split at h <;> split at h <;>
    · obtain ⟨rfl, h⟩ := Variable.mk.inj h
      exact congrArg (Variable.mk x) (by omega)

@[simp] theorem onNode_inj : ρ.onNode m = ρ.onNode n ↔ m = n := by
  unfold onNode
  split <;> split <;> omega

/-- One store has given out all identities of another one that are kept, and further ones as the
other has, and remembers the same applications. -/
structure Matches (ρ : Renumbering) (s s' : Store) : Prop where
  firstVariable : ρ.firstVariable ≤ s.nextVariable
  nextVariable : s'.nextVariable = s.nextVariable + ρ.variableShift
  firstNode : ρ.firstNode ≤ s.nextNode
  nextNode : s'.nextNode = s.nextNode + ρ.nodeShift
  settled : ∀ n, s'.settled.contains (ρ.onNode n) = s.settled.contains n

end Renumbering

namespace Term

mutual

/-- The term with all its identities renumbered, those of names apart. -/
def renumber (ρ : Renumbering) : Term → Term
  | var v => var (ρ.onVariable v)
  | native c => native c
  | foreign x => foreign x
  | named info d => named info (renumber ρ d)
  | lam v b => lam (ρ.onVariable v) (renumber ρ b)
  | app n h as => app (ρ.onNode n) (renumber ρ h) (renumberAll ρ as)

/-- The terms of a list, renumbered. -/
def renumberAll (ρ : Renumbering) : List Term → List Term
  | [] => []
  | a :: as => renumber ρ a :: renumberAll ρ as

end

variable {ρ : Renumbering} {K : Kinds}

theorem renumberAll_eq_map (ts : List Term) : renumberAll ρ ts = ts.map (renumber ρ) := by
  induction ts with
  | nil => rfl
  | cons t ts ih => rw [renumberAll, ih, List.map_cons]

@[simp] theorem length_renumberAll (ts : List Term) : (renumberAll ρ ts).length = ts.length := by
  rw [renumberAll_eq_map, List.length_map]

theorem renumberAll_append (ts us : List Term) :
    renumberAll ρ (ts ++ us) = renumberAll ρ ts ++ renumberAll ρ us := by
  simp only [renumberAll_eq_map, List.map_append]

theorem renumberAll_drop (n : Nat) (ts : List Term) :
    renumberAll ρ (ts.drop n) = (renumberAll ρ ts).drop n := by
  simp only [renumberAll_eq_map, List.map_drop]

@[simp] theorem isApp_renumber (t : Term) : (t.renumber ρ).isApp = t.isApp := by
  cases t <;> rfl

mutual

/-- Renumbering leaves alone what a term is made of. -/
theorem MadeOf.renumber : ∀ {t : Term}, t.MadeOf K → (t.renumber ρ).MadeOf K
  | var _, _ => trivial
  | native _, h => h
  | foreign _, h => h.elim
  | named _ d, h => ⟨h.1, MadeOf.renumber (t := d) h.2⟩
  | lam _ b, h => MadeOf.renumber (t := b) h
  | app _ h _, ⟨hflat, hh, has⟩ =>
    ⟨fun hn => hflat ((isApp_renumber h).symm.trans hn), MadeOf.renumber hh,
      MadeOfAll.renumberAll has⟩

theorem MadeOfAll.renumberAll : ∀ {ts : List Term}, MadeOfAll K ts →
    MadeOfAll K (renumberAll ρ ts)
  | [], _ => trivial
  | _ :: _, ⟨ht, hts⟩ => ⟨MadeOf.renumber ht, MadeOfAll.renumberAll hts⟩

end

mutual

/-- Renumbering leaves alone how deep lambdas nest. -/
theorem lambdaDepth_renumber : ∀ t : Term, (t.renumber ρ).lambdaDepth = t.lambdaDepth
  | var _ => rfl
  | native _ => rfl
  | foreign _ => rfl
  | named _ d => lambdaDepth_renumber d
  | lam _ b => congrArg (· + 1) (lambdaDepth_renumber b)
  | app _ h as => by
    rw [renumber, lambdaDepth, lambdaDepth, lambdaDepth_renumber h, lambdaDepthOfAll_renumberAll as]

theorem lambdaDepthOfAll_renumberAll :
    ∀ ts : List Term, lambdaDepthOfAll (renumberAll ρ ts) = lambdaDepthOfAll ts
  | [] => rfl
  | t :: ts => by
    rw [renumberAll, lambdaDepthOfAll, lambdaDepthOfAll, lambdaDepth_renumber t,
      lambdaDepthOfAll_renumberAll ts]

end

/-- Renumbering leaves alone whether a term awaits arguments. -/
theorem awaitsArgs_renumber : ∀ t : Term, (t.renumber ρ).awaitsArgs = t.awaitsArgs
  | var _ => rfl
  | native _ => rfl
  | foreign _ => rfl
  | named _ d => awaitsArgs_renumber d
  | lam _ _ => rfl
  | app _ h _ => awaitsArgs_renumber h

end Term

/-! ### Renumbered computations -/

/-- Two computations both have a result, of which one belongs to the other, and their stores still
match, or both fail. -/
inductive Renumbering.Outcome {α β : Type} (ρ : Renumbering) (P : α → β → Prop) :
    EStateM.Result Failure Store α → EStateM.Result Failure Store β → Prop where
  | ok {a : α} {b : β} {s s' : Store} (h : P a b) (hs : ρ.Matches s s') :
    Outcome ρ P (.ok a s) (.ok b s')
  | error {e e' : Failure} {s s' : Store} : Outcome ρ P (.error e s) (.error e' s')

/-- Over stores that match, two computations have the same outcome, renumbered. -/
def Renumbered {α β : Type} (ρ : Renumbering) (x : Engine α) (y : Engine β) (P : α → β → Prop) :
    Prop :=
  ∀ s s', ρ.Matches s s' → ρ.Outcome P (x s) (y s')

namespace Renumbered

variable {α β γ δ : Type} {ρ : Renumbering} {x : Engine α} {y : Engine β} {P Q : α → β → Prop}

/-- Constants that belong together. -/
protected theorem pure {a : α} {b : β} (h : P a b) : Renumbered ρ (pure a) (pure b) P :=
  fun _ _ hs => .ok h hs

/-- Failures. -/
protected theorem throw {e e' : Failure} :
    Renumbered ρ (MonadExcept.throw e) (MonadExcept.throw e') P :=
  fun _ _ _ => .error

/-- A weaker condition is met too. -/
theorem imp (hx : Renumbered ρ x y P) (h : ∀ a b, P a b → Q a b) : Renumbered ρ x y Q := by
  intro s s' hs
  have outcome := hx s s' hs
  generalize x s = r at outcome
  generalize y s' = r' at outcome
  cases outcome with
  | ok hp hs' => exact .ok (h _ _ hp) hs'
  | error => exact .error

/-- What is known of results is known of these. -/
theorem ends {E : Failure → Prop} {T : α → Prop} (hx : Renumbered ρ x y P)
    (h : Engine.Ends x E T) : Renumbered ρ x y fun a b => P a b ∧ T a := by
  intro s s' hs
  have hT := h s
  have outcome := hx s s' hs
  generalize x s = r at hT outcome
  generalize y s' = r' at outcome
  cases outcome with
  | ok hp hs' => exact .ok ⟨hp, hT⟩ hs'
  | error => exact .error

/-- Sequences, part by part. -/
protected theorem bind {f : α → Engine γ} {g : β → Engine δ} {S : γ → δ → Prop}
    (hx : Renumbered ρ x y P) (hf : ∀ a b, P a b → Renumbered ρ (f a) (g b) S) :
    Renumbered ρ (x >>= f) (y >>= g) S := by
  intro s s' hs
  generalize hr : x s = r
  generalize hr' : y s' = r'
  have outcome := hx s s' hs
  rw [hr, hr'] at outcome
  cases outcome with
  | ok hp hs' =>
    rw [Engine.bind_of_ok hr, Engine.bind_of_ok hr']
    exact hf _ _ hp _ _ hs'
  | error =>
    rw [Engine.bind_of_error hr, Engine.bind_of_error hr']
    exact .error

/-- Over the store that has given out more, there is a result where there is one over the other. -/
theorem exists_of_ok (hx : Renumbered ρ x y P) {s s' s₁ : Store} (hs : ρ.Matches s s') {a : α}
    (h : x s = .ok a s₁) : ∃ b s₂, y s' = .ok b s₂ ∧ P a b ∧ ρ.Matches s₁ s₂ := by
  have outcome := hx s s' hs
  rw [h] at outcome
  generalize y s' = r at outcome
  cases outcome with
  | ok hp hs' => exact ⟨_, _, rfl, hp, hs'⟩

/-- And the other way round. -/
theorem exists_of_ok_renumbered (hx : Renumbered ρ x y P) {s s' s₂ : Store} (hs : ρ.Matches s s')
    {b : β} (h : y s' = .ok b s₂) : ∃ a s₁, x s = .ok a s₁ ∧ P a b ∧ ρ.Matches s₁ s₂ := by
  have outcome := hx s s' hs
  rw [h] at outcome
  generalize x s = r at outcome
  cases outcome with
  | ok hp hs' => exact ⟨_, _, rfl, hp, hs'⟩

end Renumbered

namespace Engine

variable {ρ : Renumbering}

theorem renumbered_freshVariable (name : String) :
    Renumbered ρ (freshVariable name) (freshVariable name) fun v w => w = ρ.onVariable v := by
  intro s s' hs
  refine .ok ?_ { hs with firstVariable := ?_, nextVariable := ?_ }
  · rw [Renumbering.onVariable_of_le hs.firstVariable, hs.nextVariable]
  · exact Int.le_trans hs.firstVariable (Int.le_of_lt (Int.lt_succ _))
  · dsimp only
    rw [hs.nextVariable]
    omega

theorem renumbered_node (h : Term) (as : List Term) :
    Renumbered ρ (node h as) (node (h.renumber ρ) (Term.renumberAll ρ as))
      fun t u => u = t.renumber ρ := by
  intro s s' hs
  refine .ok ?_ { hs with firstNode := ?_, nextNode := ?_ }
  · rw [Term.renumber, Renumbering.onNode_of_le hs.firstNode, hs.nextNode]
  · exact Nat.le_succ_of_le hs.firstNode
  · dsimp only
    rw [hs.nextNode]
    omega

theorem renumbered_isSettled (n : Nat) :
    Renumbered ρ (isSettled n) (isSettled (ρ.onNode n)) fun a b => b = a :=
  fun _ _ hs => .ok (hs.settled n) hs

theorem renumbered_settle (n : Nat) :
    Renumbered ρ (settle n) (settle (ρ.onNode n)) fun _ _ => True := by
  intro s s' hs
  refine .ok trivial { hs with settled := fun m => ?_ }
  rw [Std.HashSet.contains_insert, Std.HashSet.contains_insert, hs.settled m]
  congr 1
  rw [Bool.eq_iff_iff, beq_iff_eq, beq_iff_eq, Renumbering.onNode_inj]

theorem renumbered_whole (a : Amount) : Renumbered ρ (whole a) (whole a) fun m n => n = m := by
  unfold whole
  split
  · exact .pure rfl
  · exact .throw

theorem renumbered_bound (a : Amount) : Renumbered ρ (bound a) (bound a) fun m n => n = m := by
  unfold bound
  split
  · exact .pure rfl
  · exact .throw

end Engine

end Combinatory
