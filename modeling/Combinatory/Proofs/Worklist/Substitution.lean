import Combinatory.Proofs.Invariant
import Combinatory.Proofs.Worklist

/-!
# Substitution without recursion

Replacing a variable can be done with a list of the nodes that are being worked on, each with its
children and with what has become of the first of them. While the node on top of the list has a
child left, that child is put on top of it. A node whose children are all done is taken off and
rebuilt, and what it has become is handed to the node below it.

At every moment the rest of the work is to replace the variable in the children that are left of the
node on top, to rebuild that node, and to go on with the nodes below (`Term.replaceFrom_cons`). So
the list gives what the recursion gives, in the same order of effects and with the same failures
(`Term.replaceOnList_eq_replace`), whatever closes a lambda again.
-/

namespace Combinatory

/-- Computations that agree after every result that there can be are the same. -/
theorem GivesOnly.bind_congr {α β : Type} {x : Engine α} {P : α → Prop} {f g : α → Engine β}
    (hx : GivesOnly x P) (h : ∀ a, P a → f a = g a) : x >>= f = x >>= g := by
  funext s
  cases hr : x s with
  | ok a s' => rw [Engine.bind_of_ok hr, Engine.bind_of_ok hr, h a (hx.of_ok hr)]
  | error e s' => rw [Engine.bind_of_error hr, Engine.bind_of_error hr]

namespace Term

/-- A node that is worked on: its children, and what has become of the first of them. -/
structure Unfinished where
  node : Term
  children : List Term
  results : List (Option Term)

/-- The children of a node in which a variable is replaced: not the body of a lambda that binds
it. -/
def children (v : Variable) : Term → List Term
  | app _ h as => h :: as
  | lam w b => if w = v then [] else [b]
  | named _ d => [d]
  | _ => []

theorem sum_size_children (v : Variable) (t : Term) :
    ((t.children v).map size).sum + 1 ≤ t.size := by
  cases t with
  | lam w b => by_cases h : w = v <;> simp [children, size, h]
  | app n h as => simp [children, size, sizeAll_eq_sum, Nat.add_assoc]
  | _ => simp [children, size]

namespace Unfinished

/-- The work on a node begins. -/
def start (v : Variable) (t : Term) : Unfinished := ⟨t, t.children v, []⟩

/-- Some more children are done. -/
def add (f : Unfinished) (os : List (Option Term)) : Unfinished :=
  { f with results := f.results ++ os }

/-- The children that are left. -/
def left (f : Unfinished) : List Term := f.children.drop f.results.length

@[simp] theorem left_start (v : Variable) (t : Term) : (start v t).left = t.children v := rfl

@[simp] theorem left_add (f : Unfinished) (o : Option Term) : (f.add [o]).left = f.left.tail := by
  simp [left, add, List.tail_drop]

@[simp] theorem add_nil (f : Unfinished) : f.add [] = f := by
  simp [add]

@[simp] theorem add_add (f : Unfinished) (os us : List (Option Term)) :
    (f.add os).add us = f.add (os ++ us) := by
  simp [add]

/-- What the node has become when its children are done. It is none if nothing was replaced. -/
def rebuild (R : Rules) (reclose : Variable → Term → Engine Term) (v : Variable) (value : Term)
    (f : Unfinished) : Engine (Option Term) :=
  match f.node, f.results with
  | var w, _ => pure (if w = v && !value.isNull then some value else none)
  | app _ _ _, results =>
    if results.all Option.isNone then pure none
    else
      match List.zipWith (fun old new => new.getD old) f.children results with
      | h :: as => do return some (← apply R h as)
      | [] => pure none
  | lam w _, some b :: _ => do return some (← reclose w b)
  | named _ _, o :: _ => pure o
  | _, _ => pure none

/-- The work that is left on a node when a child of it is done, and the part of it that is left
while that child is worked on. -/
def cost (f : Unfinished) : Nat := 2 * (f.left.map size).sum + 1
def costBelow (f : Unfinished) : Nat := 2 * (f.left.tail.map size).sum + 1

theorem cost_add (f : Unfinished) (o : Option Term) : (f.add [o]).cost = f.costBelow := by
  simp [cost, costBelow]

theorem cost_start (v : Variable) {f : Unfinished} {a : Term} {rest : List Term}
    (h : f.left = a :: rest) : (start v a).cost + f.costBelow < f.cost := by
  have := sum_size_children v a
  simp [cost, costBelow, h]
  omega

end Unfinished

open Unfinished (start)

/-- What a node has become is handed to the one below it. -/
def deliver (o : Option Term) : List Unfinished → List Unfinished
  | [] => []
  | f :: stack => f.add [o] :: stack

/-- The work that is left on the nodes of a list. -/
def workOn : List Unfinished → Nat
  | [] => 0
  | f :: stack => f.cost + (stack.map Unfinished.costBelow).sum

theorem workOn_deliver (o : Option Term) (stack : List Unfinished) :
    workOn (deliver o stack) = (stack.map Unfinished.costBelow).sum := by
  cases stack with
  | nil => rfl
  | cons f stack => simp [deliver, workOn, Unfinished.cost_add]

/-- Works on the nodes of a list until none is left, and gives what the last one has become. -/
def replaceFrom (R : Rules) (reclose : Variable → Term → Engine Term) (v : Variable) (value : Term)
    (stack : List Unfinished) (out : Option Term) : Engine (Option Term) :=
  match stack with
  | [] => pure out
  | f :: stack =>
    match _h : f.left with
    | a :: _ => replaceFrom R reclose v value (start v a :: f :: stack) out
    | [] => do
      let o ← f.rebuild R reclose v value
      replaceFrom R reclose v value (deliver o stack) o
termination_by workOn stack
decreasing_by
  · have := Unfinished.cost_start v _h
    simp [workOn]
    omega
  · rw [workOn_deliver]
    simp [workOn, Unfinished.cost]

/-- The term with a value in place of the free occurrences of a variable, found with a list of
nodes. -/
def replaceOnList (R : Rules) (reclose : Variable → Term → Engine Term) (t : Term) (v : Variable)
    (value : Term) : Engine (Option Term) :=
  replaceFrom R reclose v value [start v t] none

/-! ### The recursion gives the same -/

variable {R : Rules} {reclose : Variable → Term → Engine Term} {v : Variable} {value : Term}
  {as : List Term}

/-- Each term of a list stands beside what it has become. -/
theorem givesOnly_replaceAll (ts : List Term) :
    GivesOnly (replaceAll R reclose ts v value) fun ps => ps.map Prod.fst = ts := by
  induction ts with
  | nil =>
    unfold replaceAll
    exact .pure rfl
  | cons t ts ih =>
    unfold replaceAll
    apply (givesOnly_anything _).bind
    intro o _
    apply ih.bind
    intro ps hps
    exact .pure (by rw [List.map_cons, hps])

/-- A child that is left is put on top of its node. -/
theorem replaceFrom_of_left {f : Unfinished} {a : Term} {rest : List Term} (h : f.left = a :: rest)
    (stack : List Unfinished) (out : Option Term) :
    replaceFrom R reclose v value (f :: stack) out =
      replaceFrom R reclose v value (start v a :: f :: stack) out := by
  rw [replaceFrom.eq_2]
  split
  · next heq =>
    rw [h] at heq
    cases heq
    rfl
  · next heq =>
    rw [h] at heq
    cases heq

/-- A node with no child left is rebuilt. -/
theorem replaceFrom_of_done {f : Unfinished} (h : f.left = []) (stack : List Unfinished)
    (out : Option Term) : replaceFrom R reclose v value (f :: stack) out = (do
      let o ← f.rebuild R reclose v value
      replaceFrom R reclose v value (deliver o stack) o) := by
  rw [replaceFrom.eq_2]
  split
  · next heq =>
    rw [h] at heq
    cases heq
  · rfl

/-- A lambda is closed again if something was replaced in its body. -/
theorem rebuild_lam (w : Variable) (b : Term) (cs : List Term) (o : Option Term) :
    Unfinished.rebuild R reclose v value ⟨lam w b, cs, [o]⟩ = (do
      match o with
      | some b' => return some (← reclose w b')
      | none => return none) := by
  cases o <;> rfl

/-- An application is made again if something was replaced in one of its parts. -/
theorem rebuild_app {ps : List (Term × Option Term)} (hps : ps.map Prod.fst = as) (n : Nat)
    (h : Term) (o : Option Term) :
    Unfinished.rebuild R reclose v value ⟨app n h as, h :: as, o :: ps.map Prod.snd⟩ = (do
      if o.isNone && ps.all (·.2.isNone) then return none
      else return some (← apply R (o.getD h) (ps.map fun p => p.2.getD p.1))) := by
  have new : List.zipWith (fun (old : Term) new => new.getD old) as (ps.map Prod.snd) =
      ps.map fun p => p.2.getD p.1 := by
    rw [← hps, List.zipWith_map, List.zipWith_self]
  unfold Unfinished.rebuild
  simp only [List.all_cons, List.all_map, List.zipWith_cons_cons, new]
  rfl

mutual

/-- A node on top of the list is replaced as the recursion does it, whatever is below. -/
theorem replaceFrom_start : ∀ (t : Term) (stack : List Unfinished) (out : Option Term),
    replaceFrom R reclose v value (start v t :: stack) out = (do
      let o ← replace R reclose t v value
      replaceFrom R reclose v value (deliver o stack) o)
  | var w, stack, out => by
    rw [replaceFrom_of_done rfl, replace]
    rfl
  | native c, stack, out => by
    rw [replaceFrom_of_done rfl, replace]
    rfl
  | foreign x, stack, out => by
    rw [replaceFrom_of_done rfl, replace]
    rfl
  | named info d, stack, out => by
    rw [replaceFrom_of_left rfl, replaceFrom_start d, replace]
    refine bind_congr fun o => ?_
    rw [deliver, replaceFrom_of_done rfl]
    rfl
  | lam w b, stack, out => by
    rw [replace]
    by_cases h : w = v
    · have none : (start v (lam w b)).left = [] := by simp [children, h]
      rw [replaceFrom_of_done none, if_pos h]
      rfl
    · have one : (start v (lam w b)).left = [b] := by simp [children, h]
      rw [replaceFrom_of_left one, replaceFrom_start b, if_neg h, bind_assoc]
      refine bind_congr fun o => ?_
      have done : ((start v (lam w b)).add [o]).left = [] := by simp [one]
      rw [deliver, replaceFrom_of_done done]
      exact congrArg (· >>= _) (rebuild_lam w b _ o)
  | app n h as, stack, out => by
    rw [replaceFrom_of_left rfl, replaceFrom_start h, replace, bind_assoc]
    refine bind_congr fun h' => ?_
    rw [deliver, replaceFrom_cons as _ rfl, bind_assoc]
    refine (givesOnly_replaceAll as).bind_congr fun ps hps => ?_
    exact congrArg (· >>= _) (rebuild_app hps n h h')

/-- The rest of the work on a node whose last children are left: the variable is replaced in these,
and the node is rebuilt. -/
theorem replaceFrom_cons : ∀ (rest : List Term) (f : Unfinished), f.left = rest →
    ∀ (stack : List Unfinished) (out : Option Term),
      replaceFrom R reclose v value (f :: stack) out = (do
        let ps ← replaceAll R reclose rest v value
        let o ← (f.add (ps.map Prod.snd)).rebuild R reclose v value
        replaceFrom R reclose v value (deliver o stack) o)
  | [], f, h, stack, out => by
    rw [replaceFrom_of_done h, replaceAll]
    simp
  | a :: rest, f, h, stack, out => by
    rw [replaceFrom_of_left h, replaceFrom_start a, replaceAll, bind_assoc]
    refine bind_congr fun o => ?_
    have after : (f.add [o]).left = rest := by simp [h]
    rw [deliver, replaceFrom_cons rest (f.add [o]) after, bind_assoc]
    refine bind_congr fun ps => ?_
    simp

end

/-- The list of nodes gives what the recursion gives, over every store. -/
theorem replaceOnList_eq_replace (R : Rules) (reclose : Variable → Term → Engine Term) (t : Term)
    (v : Variable) (value : Term) :
    replaceOnList R reclose t v value = replace R reclose t v value := by
  rw [replaceOnList, replaceFrom_start]
  have handed (o : Option Term) : replaceFrom R reclose v value (deliver o []) o = pure o := by
    rw [deliver, replaceFrom]
  simp [handed]

/-- A substitution is work on a list of nodes. -/
theorem subst_eq_replaceOnList (R : Rules) (t : Term) (v : Variable) (value : Term) :
    subst R t v value = replaceOnList R (abstract R) t v value :=
  (replaceOnList_eq_replace R (abstract R) t v value).symm

end Term

end Combinatory
