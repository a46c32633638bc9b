import Combinatory.Reduction

/-!
# Steps along a path

The search for a step needs no recursion. It can keep the applications that it has gone into on a
path, each with the child that it is at, and move from a term to the next one: into an application,
on to the next child where there is no step, and out of an application all of whose children have
none, which is remembered then. What the search finds is put back in place along the path. This
takes the same step as the recursion does (`Term.stepOnPath_eq_step`): what is found in a term does
not depend on the path to it, and what is left of an application depends only on the arguments that
the search has not come to.
-/

namespace Combinatory

namespace Term

/-- An application that the search has gone into, and the child that it is at: child `0` is the
head, and child `i + 1` the argument at place `i`. -/
structure Frame where
  node : Nat
  head : Term
  args : List Term
  child : Nat

namespace Frame

/-- The application with a new term in the place of the child. -/
def refill (R : Rules) (f : Frame) (t : Term) : Engine Term :=
  if f.child = 0 then apply R t f.args else apply R f.head (f.args.set (f.child - 1) t)

/-- The same application, with the search at the next child. -/
def next (f : Frame) : Frame := { f with child := f.child + 1 }

/-- The size of the arguments that the search has not come to. -/
def pending (f : Frame) : Nat := sizeAll (f.args.drop f.child)

theorem pending_pos (f : Frame) : 0 < f.pending := sizeAll_pos _

theorem size_add_pending_next (f : Frame) (h : f.child < f.args.length) :
    f.args[f.child].size + f.next.pending = f.pending := by
  simp only [pending, next, List.drop_eq_getElem_cons h, sizeAll]

end Frame

/-- The size of all that the search has not come to beside its path. -/
def pendingOn : List Frame → Nat
  | [] => 0
  | f :: path => f.pending + pendingOn path

/-- A rewritten term is put back in place along the path to it, innermost application first. -/
def rebuild (R : Rules) : List Frame → Stepped → Engine Stepped
  | [], r => pure r
  | f :: path, r => do rebuild R path ⟨← f.refill R r.term, r.cost⟩

mutual

/-- Looks for a step in the term at the end of a path. -/
def seek (R : Rules) (t : Term) (path : List Frame) : Engine (Option Stepped) :=
  match t with
  | named info d =>
    if info.isOpen then do return some (← rebuild R path ⟨d, 0⟩) else resume R path
  | app n h as => do
    if ← Engine.isSettled n then resume R path
    else
      match ← reduce R h as with
      | some r => return some (← rebuild R path ⟨r, 1⟩)
      | none => seek R h (⟨n, h, as, 0⟩ :: path)
  | _ => resume R path
termination_by (t.size + pendingOn path, 0, t.size)
decreasing_by
  · exact .left _ _ (Nat.lt_add_of_pos_left (size_pos _))
  · exact .left _ _ (Nat.lt_add_of_pos_left (size_pos _))
  · -- nothing is passed by, but the term is smaller
    have hlt : h.size < (app n h as).size := Nat.lt_add_of_pos_right (sizeAll_pos as)
    have heq : h.size + pendingOn (⟨n, h, as, 0⟩ :: path) =
        (app n h as).size + pendingOn path := by
      simp [pendingOn, Frame.pending, size, Nat.add_assoc]
    exact heq ▸ .right _ (.right _ hlt)
  · exact .left _ _ (Nat.lt_add_of_pos_left (size_pos _))

/-- Goes on to the next child where the term at the end of a path has no step. An application with
no child left has none either, and is remembered. -/
def resume (R : Rules) (path : List Frame) : Engine (Option Stepped) :=
  match path with
  | [] => pure none
  | f :: path =>
    if h : f.child < f.args.length then seek R f.args[f.child] (f.next :: path)
    else do
      Engine.settle f.node
      resume R path
termination_by (pendingOn path, 1, 0)
decreasing_by
  · have heq : f.args[f.child].size + pendingOn (f.next :: path) = pendingOn (f :: path) := by
      rw [pendingOn, pendingOn, ← Nat.add_assoc, f.size_add_pending_next h]
    exact heq ▸ .right _ (.left _ _ Nat.zero_lt_one)
  · exact .left _ _ (Nat.lt_add_of_pos_left f.pending_pos)

end

/-- One step, found along a path, or `none` if the term is in normal form. -/
def stepOnPath (R : Rules) (t : Term) : Engine (Option Stepped) := seek R t []

/-! ### The recursion takes the same steps -/

variable {R : Rules}

/-- How the search at the end of a path goes on with what is found there. -/
def proceed (R : Rules) (path : List Frame) : Option Stepped → Engine (Option Stepped)
  | some r => do return some (← rebuild R path r)
  | none => resume R path

@[simp] theorem resume_nil : resume R [] = pure none := by
  rw [resume]

@[simp] theorem proceed_nil (o : Option Stepped) : proceed R [] o = pure o := by
  cases o with
  | some r => simp [proceed, rebuild]
  | none => simp [proceed]

@[simp] theorem proceed_none (path : List Frame) : proceed R path none = resume R path := rfl

/-- What was found in the child is put in its place before the search goes on. -/
theorem proceed_cons_some (f : Frame) (path : List Frame) (r : Stepped) :
    proceed R (f :: path) (some r) =
      (do proceed R path (some ⟨← f.refill R r.term, r.cost⟩)) := by
  simp [proceed, rebuild]

/-- Where the search comes to the last arguments of an application, it looks at the first of
them. -/
theorem resume_cons (n : Nat) (h : Term) (done : List Term) (a : Term) (rest : List Term)
    (path : List Frame) :
    resume R (⟨n, h, done ++ a :: rest, done.length⟩ :: path) =
      seek R a (⟨n, h, (done ++ [a]) ++ rest, (done ++ [a]).length⟩ :: path) := by
  have here : done.length < (done ++ a :: rest).length := by simp
  rw [resume, dif_pos here]
  simp [Frame.next]

mutual

/-- What the search finds in a term is the step of the term, whatever the path to it. -/
theorem seek_eq_step_bind : ∀ (t : Term) (path : List Frame),
    seek R t path = step R t >>= proceed R path
  | var v, path => by simp [seek, step]
  | native c, path => by simp [seek, step]
  | foreign x, path => by simp [seek, step]
  | lam v b, path => by simp [seek, step]
  | named info d, path => by
    rw [seek, step]
    by_cases h : info.isOpen
    · simp [h, proceed]
    · simp [h]
  | app n h as, path => by
    rw [seek, step, bind_assoc]
    refine bind_congr fun known => ?_
    cases known with
    | true => simp
    | false =>
      simp only [Bool.false_eq_true, if_false, bind_assoc]
      refine bind_congr fun fired => ?_
      cases fired with
      | some r => simp [proceed]
      | none =>
        dsimp only
        rw [seek_eq_step_bind h, bind_assoc]
        refine bind_congr fun o => ?_
        cases o with
        | some h' => simp [proceed_cons_some, Frame.refill]
        | none =>
          -- the search is at the first argument
          have among := resume_eq_stepAmong_bind as n h [] path
          rw [List.nil_append, List.length_nil] at among
          rw [proceed_none, among, bind_assoc]
          refine bind_congr fun o => ?_
          cases o with
          | some as' => simp
          | none => simp

/-- What the search finds in an application when it has come to its last arguments is a step of the
first of these that has one. -/
theorem resume_eq_stepAmong_bind : ∀ (rest : List Term) (n : Nat) (h : Term) (done : List Term)
    (path : List Frame),
    resume R (⟨n, h, done ++ rest, done.length⟩ :: path) = (do
      match ← stepAmong R rest with
      | some r => proceed R path (some ⟨← apply R h (done ++ r.terms), r.cost⟩)
      | none =>
        Engine.settle n
        resume R path)
  | [], n, h, done, path => by
    rw [resume, dif_neg (by simp)]
    simp [stepAmong]
  | a :: rest, n, h, done, path => by
    rw [resume_cons, seek_eq_step_bind a, stepAmong, bind_assoc]
    refine bind_congr fun o => ?_
    cases o with
    | some a' => simp [proceed_cons_some, Frame.refill]
    | none =>
      rw [proceed_none, resume_eq_stepAmong_bind rest n h (done ++ [a]) path, bind_assoc]
      refine bind_congr fun o => ?_
      cases o with
      | some as' => simp
      | none => simp

end

/-- The search along a path takes the step that the recursion takes, remembers the same
applications and fails where it fails. -/
theorem stepOnPath_eq_step (R : Rules) (t : Term) : stepOnPath R t = step R t := by
  have found : proceed R [] = pure := funext proceed_nil
  rw [stepOnPath, seek_eq_step_bind, found, bind_pure]

end Term

end Combinatory
