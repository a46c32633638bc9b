import Combinatory.Proofs.Guarantee
import Combinatory.Proofs.Settled.Strategy
import Mathlib.Logic.Function.Basic

/-!
# Stores that differ in their tables

Two stores that have given out the same identities and differ in the applications they remember are
twins if both remember well: what they remember is idle, and so is all that it consists of, which
they remember too. A heap tells what every application consists of, so that it makes sense to speak
of a remembered identity. Two computations are alike when twins stay twins through them, with the
same result or the same failure; a computation that is alike to itself does not depend on what is
remembered.
-/

namespace Combinatory

/-- The head and the arguments of every application made so far, by its identity. -/
abbrev Heap := Nat → Option (Term × List Term)

namespace Heap

/-- Whether a heap has all applications of another one. -/
def Within (H H' : Heap) : Prop := ∀ n x, H n = some x → H' n = some x

/-- Whether only idle applications are remembered, and with each all that it consists of. -/
def Sound (H : Heap) (table : Std.HashSet Nat) : Prop :=
  ∀ n ∈ table, ∃ h as, H n = some (h, as) ∧ (Term.app n h as).Idle ∧
    ∀ m ∈ (Term.app n h as).nodes, m ∈ table

/-- More applications make no difference to those that are remembered. -/
theorem Sound.mono {H H' : Heap} {table : Std.HashSet Nat} (h : H.Sound table)
    (hH : H.Within H') : H'.Sound table := by
  intro n hn
  obtain ⟨hd, as, hheap, hidle, hnodes⟩ := h n hn
  exact ⟨hd, as, hH n _ hheap, hidle, hnodes⟩

/-- An idle application may be remembered when all that it consists of is. -/
theorem Sound.insert {H : Heap} {table : Std.HashSet Nat} (h : H.Sound table) {n : Nat}
    {hd : Term} {as : List Term} (hheap : H n = some (hd, as)) (hidle : (Term.app n hd as).Idle)
    (hh : ∀ m ∈ hd.nodes, m ∈ table) (has : ∀ m ∈ Term.nodesAll as, m ∈ table) :
    H.Sound (table.insert n) := by
  intro m hm
  rcases Std.HashSet.mem_insert.mp hm with heq | hm
  · rw [beq_iff_eq] at heq
    subst heq
    refine ⟨hd, as, hheap, hidle, fun k hk => ?_⟩
    rw [Term.nodes, List.mem_cons, List.mem_append] at hk
    rcases hk with rfl | hk | hk
    · exact Std.HashSet.mem_insert_self
    · exact Std.HashSet.mem_insert.mpr (.inr (hh k hk))
    · exact Std.HashSet.mem_insert.mpr (.inr (has k hk))
  · obtain ⟨hd, as, hheap, hidle, hnodes⟩ := h m hm
    exact ⟨hd, as, hheap, hidle, fun k hk => Std.HashSet.mem_insert.mpr (.inr (hnodes k hk))⟩

end Heap

namespace Term

mutual

/-- Whether a heap tells what every application in a term consists of, and all its combinators are
of a kind. -/
def Recorded (ok : Native → Prop) (H : Heap) : Term → Prop
  | var _ => True
  | native c => ok c
  | foreign _ => True
  | named _ d => Recorded ok H d
  | lam _ b => Recorded ok H b
  | app n h as => H n = some (h, as) ∧ Recorded ok H h ∧ RecordedAll ok H as

/-- Whether all terms of a list are recorded. -/
def RecordedAll (ok : Native → Prop) (H : Heap) : List Term → Prop
  | [] => True
  | a :: as => Recorded ok H a ∧ RecordedAll ok H as

end

variable {ok : Native → Prop} {H H' : Heap}

theorem RecordedAll.nil : RecordedAll ok H [] := trivial

theorem RecordedAll.cons {t : Term} {ts : List Term} (ht : Recorded ok H t)
    (hts : RecordedAll ok H ts) : RecordedAll ok H (t :: ts) :=
  ⟨ht, hts⟩

/-- A list is recorded when its terms are. -/
theorem recordedAll_iff {ts : List Term} :
    RecordedAll ok H ts ↔ ∀ t ∈ ts, Recorded ok H t := by
  induction ts with
  | nil => simp [RecordedAll]
  | cons t ts ih => simp [RecordedAll, ih]

/-- Of two lists together, all terms are recorded when those of both are. -/
theorem recordedAll_append {ts us : List Term} :
    RecordedAll ok H (ts ++ us) ↔ RecordedAll ok H ts ∧ RecordedAll ok H us := by
  simp only [recordedAll_iff, List.forall_mem_append]

mutual

/-- What was recorded stays recorded. -/
theorem Recorded.mono (hH : H.Within H') : ∀ {t : Term}, Recorded ok H t → Recorded ok H' t
  | var _, _ => trivial
  | native _, h => h
  | foreign _, _ => trivial
  | named _ d, h => Recorded.mono hH (t := d) h
  | lam _ b, h => Recorded.mono hH (t := b) h
  | app _ _ _, ⟨hn, hh, has⟩ => ⟨hH _ _ hn, Recorded.mono hH hh, RecordedAll.mono hH has⟩

theorem RecordedAll.mono (hH : H.Within H') :
    ∀ {ts : List Term}, RecordedAll ok H ts → RecordedAll ok H' ts
  | [], _ => trivial
  | _ :: _, ⟨ht, hts⟩ => ⟨Recorded.mono hH ht, RecordedAll.mono hH hts⟩

end

mutual

/-- A term whose combinators are of a kind is one whose combinators are of a wider kind. -/
theorem Recorded.imp {ok' : Native → Prop} (hok : ∀ c, ok c → ok' c) :
    ∀ {t : Term}, Recorded ok H t → Recorded ok' H t
  | var _, _ => trivial
  | native c, h => hok c h
  | foreign _, _ => trivial
  | named _ d, h => Recorded.imp hok (t := d) h
  | lam _ b, h => Recorded.imp hok (t := b) h
  | app _ _ _, ⟨hn, hh, has⟩ => ⟨hn, Recorded.imp hok hh, RecordedAll.imp hok has⟩

theorem RecordedAll.imp {ok' : Native → Prop} (hok : ∀ c, ok c → ok' c) :
    ∀ {ts : List Term}, RecordedAll ok H ts → RecordedAll ok' H ts
  | [], _ => trivial
  | _ :: _, ⟨ht, hts⟩ => ⟨Recorded.imp hok ht, RecordedAll.imp hok hts⟩

end

end Term

/-- Two stores that have given out the same identities and remember well. -/
structure Twins where
  heap : Heap
  left : Store
  right : Store
  nextVariable : right.nextVariable = left.nextVariable
  nextNode : right.nextNode = left.nextNode
  bounded : ∀ n, left.nextNode ≤ n → heap n = none
  left_sound : heap.Sound left.settled
  right_sound : heap.Sound right.settled

namespace Twins

/-- Twins that have given out and remembered nothing. -/
def start : Twins where
  heap _ := none
  left := {}
  right := {}
  nextVariable := rfl
  nextNode := rfl
  bounded _ _ := rfl
  left_sound _ hn := absurd hn Std.HashSet.not_mem_empty
  right_sound _ hn := absurd hn Std.HashSet.not_mem_empty

/-- Twins come after others if nothing was forgotten in between. -/
structure Later (p p' : Twins) : Prop where
  heap : p.heap.Within p'.heap
  nextVariable : p.left.nextVariable ≤ p'.left.nextVariable
  left : ∀ n ∈ p.left.settled, n ∈ p'.left.settled
  right : ∀ n ∈ p.right.settled, n ∈ p'.right.settled

instance : LE Twins := ⟨Later⟩

theorem le_refl (p : Twins) : p ≤ p :=
  ⟨fun _ _ h => h, Int.le_refl _, fun _ h => h, fun _ h => h⟩

theorem le_trans {p₁ p₂ p₃ : Twins} (h : p₁ ≤ p₂) (h' : p₂ ≤ p₃) : p₁ ≤ p₃ where
  heap n x hx := h'.heap n x (h.heap n x hx)
  nextVariable := Int.le_trans h.nextVariable h'.nextVariable
  left n hn := h'.left n (h.left n hn)
  right n hn := h'.right n (h.right n hn)

end Twins

variable {ok : Native → Prop} {p p' : Twins}

theorem Term.Recorded.later {t : Term} (ht : t.Recorded ok p.heap) (h : p ≤ p') :
    t.Recorded ok p'.heap :=
  ht.mono h.heap

theorem Term.RecordedAll.later {ts : List Term} (hts : RecordedAll ok p.heap ts) (h : p ≤ p') :
    RecordedAll ok p'.heap ts :=
  hts.mono h.heap

/-! ### Computations that are alike -/

/-- Two computations, the one over the left twin and the other over the right, have the same result
or the same failure, and their stores are twins again. -/
inductive Alike {α : Type} (x y : Engine α) (p : Twins) (Q : α → Twins → Prop) : Prop where
  | ok (a : α) (p' : Twins) (hx : x p.left = .ok a p'.left) (hy : y p.right = .ok a p'.right)
      (later : p ≤ p') (post : Q a p')
  | error (e : Failure) (p' : Twins) (hx : x p.left = .error e p'.left)
      (hy : y p.right = .error e p'.right) (later : p ≤ p')

namespace Alike

variable {α β : Type} {x y : Engine α} {Q : α → Twins → Prop}

/-- A weaker condition is met too. -/
theorem imp {Q' : α → Twins → Prop} (h : Alike x y p Q)
    (hQ : ∀ a p', p ≤ p' → Q a p' → Q' a p') : Alike x y p Q' := by
  cases h with
  | ok a p' hx hy later post => exact .ok a p' hx hy later (hQ a p' later post)
  | error e p' hx hy later => exact .error e p' hx hy later

/-- A result over the left twin is the result over the right one. -/
theorem exists_both_of_ok (h : Alike x y p Q) {a : α} {s : Store} (hx : x p.left = .ok a s) :
    ∃ p', p ≤ p' ∧ p'.left = s ∧ y p.right = .ok a p'.right ∧ Q a p' := by
  cases h with
  | ok b p' hx' hy later post =>
    rw [hx] at hx'
    cases hx'
    exact ⟨p', later, rfl, hy, post⟩
  | error e p' hx' _ _ =>
    rw [hx] at hx'
    cases hx'

/-- The result over the left twin meets the condition. -/
theorem exists_of_ok (h : Alike x y p Q) {a : α} {s : Store} (hx : x p.left = .ok a s) :
    ∃ p', p ≤ p' ∧ p'.left = s ∧ Q a p' := by
  obtain ⟨p', later, hs, -, post⟩ := h.exists_both_of_ok hx
  exact ⟨p', later, hs, post⟩

/-- Constants are alike. -/
protected theorem pure {a : α} (h : Q a p) : Alike (Pure.pure a) (Pure.pure a) p Q :=
  .ok a p rfl rfl p.le_refl h

/-- Failures are alike. -/
protected theorem throw {e : Failure} : Alike (MonadExcept.throw e) (MonadExcept.throw e) p Q :=
  .error e p rfl rfl p.le_refl

/-- Nothing is done after a failure. -/
theorem throw_bind {e : Failure} {f g : α → Engine β} {Q : β → Twins → Prop} :
    Alike (MonadExcept.throw e >>= f) (MonadExcept.throw e >>= g) p Q :=
  .error e p rfl rfl p.le_refl

/-- Sequences of computations that are alike are alike. -/
protected theorem bind {f g : α → Engine β} {P : α → Twins → Prop} {Q : β → Twins → Prop}
    (hx : Alike x y p P) (hf : ∀ a p₁, p ≤ p₁ → P a p₁ → Alike (f a) (g a) p₁ Q) :
    Alike (x >>= f) (y >>= g) p Q := by
  cases hx with
  | ok a p₁ hx hy later post =>
    cases hf a p₁ later post with
    | ok b p₂ hfx hgy later' post' =>
      exact .ok b p₂ ((Engine.bind_of_ok hx).trans hfx) ((Engine.bind_of_ok hy).trans hgy)
        (Twins.le_trans later later') post'
    | error e p₂ hfx hgy later' =>
      exact .error e p₂ ((Engine.bind_of_ok hx).trans hfx) ((Engine.bind_of_ok hy).trans hgy)
        (Twins.le_trans later later')
  | error e p₁ hx hy later =>
    exact .error e p₁ (Engine.bind_of_error hx) (Engine.bind_of_error hy) later

end Alike

namespace Engine

/-- The applications of a heap and one more. -/
private theorem within_update {H : Heap} {n : Nat} (hn : H n = none) (x : Term × List Term) :
    H.Within (Function.update H n (some x)) := by
  intro m y hm
  rw [Function.update_of_ne _ _ _]
  · exact hm
  · rintro rfl
    rw [hn] at hm
    cases hm

/-- An application is made as it stands, and recorded. -/
theorem alike_node (p : Twins) (h : Term) (as : List Term) :
    Alike (node h as) (node h as) p fun t p' =>
      ∃ n, t = .app n h as ∧ p'.heap n = some (h, as) := by
  have within := within_update (p.bounded _ (Nat.le_refl _)) (h, as)
  let p' : Twins := {
    heap := Function.update p.heap p.left.nextNode (some (h, as))
    left := { p.left with nextNode := p.left.nextNode + 1 }
    right := { p.right with nextNode := p.right.nextNode + 1 }
    nextVariable := p.nextVariable
    nextNode := congrArg (· + 1) p.nextNode
    bounded := by
      intro n hn
      rw [Function.update_of_ne (Nat.ne_of_gt hn)]
      exact p.bounded n (Nat.le_of_succ_le hn)
    left_sound := p.left_sound.mono within
    right_sound := p.right_sound.mono within }
  refine .ok (.app p.left.nextNode h as) p' rfl ?_ ?_ ?_
  · simp only [node, p.nextNode, p']
  · exact ⟨within, Int.le_refl _, fun _ h => h, fun _ h => h⟩
  · exact ⟨_, rfl, Function.update_self ..⟩

/-- Fresh variables are the same on both sides. -/
theorem alike_freshVariable (p : Twins) (name : String) :
    Alike (freshVariable name) (freshVariable name) p fun v p' =>
      v.ident = p.left.nextVariable ∧ p'.left.nextVariable = p.left.nextVariable + 1 := by
  let p' : Twins := { p with
    left := { p.left with nextVariable := p.left.nextVariable + 1 }
    right := { p.right with nextVariable := p.right.nextVariable + 1 }
    nextVariable := congrArg (· + 1) p.nextVariable }
  refine .ok ⟨name, p.left.nextVariable⟩ p' rfl ?_ ?_ ⟨rfl, rfl⟩
  · simp only [freshVariable, p.nextVariable, p']
  · exact ⟨fun _ _ h => h, Int.le_of_lt (Int.lt_succ _), fun _ h => h, fun _ h => h⟩

/-- Fresh identities are the same on both sides. -/
theorem alike_freshNode (p : Twins) : Alike freshNode freshNode p fun _ _ => True := by
  let p' : Twins := { p with
    left := { p.left with nextNode := p.left.nextNode + 1 }
    right := { p.right with nextNode := p.right.nextNode + 1 }
    nextNode := congrArg (· + 1) p.nextNode
    bounded := fun n hn => p.bounded n (Nat.le_of_succ_le hn) }
  refine .ok p.left.nextNode p' rfl ?_ ?_ trivial
  · simp only [freshNode, p.nextNode, p']
  · exact ⟨fun _ _ h => h, Int.le_refl _, fun _ h => h, fun _ h => h⟩

theorem alike_whole (p : Twins) (a : Amount) :
    Alike (whole a) (whole a) p fun _ _ => True := by
  unfold whole
  split
  · exact .pure trivial
  · exact .throw

theorem alike_bound (p : Twins) (a : Amount) :
    Alike (bound a) (bound a) p fun _ _ => True := by
  unfold bound
  split
  · exact .pure trivial
  · exact .throw

/-- What went well is the result on both sides. -/
theorem alike_ofExcept {α : Type} (p : Twins) (e : Except Failure α) :
    Alike (MonadExcept.ofExcept e) (MonadExcept.ofExcept e) p fun a _ => e = .ok a := by
  cases e with
  | ok a => exact .pure rfl
  | error e => exact .throw

end Engine

end Combinatory
