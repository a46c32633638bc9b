import Combinatory.Term

/-!
# Identity of terms

Two terms are the same object exactly when they are equal, since every variable, combinator, name
and application carries its identity. The decision begins with the identities and passes over parts
that the terms share, so it takes few steps however large they are.
-/

namespace Combinatory.Term

mutual

/-- Decides whether two terms are the same object. -/
def decideSame : (t u : Term) → Decidable (t = u)
  | var v, var w => decidable_of_iff (v = w) (by simp)
  | native c, native d => decidable_of_iff (c = d) (by simp)
  | foreign x, foreign y => decidable_of_iff (x = y) (by simp)
  | named i d, named j e =>
    if hi : i = j then
      match withPtrEqDecEq d e fun _ => decideSame d e with
      | isTrue hd => isTrue (by rw [hi, hd])
      | isFalse hd => isFalse (by simp [hd])
    else isFalse (by simp [hi])
  | lam v b, lam w c =>
    if hv : v = w then
      match withPtrEqDecEq b c fun _ => decideSame b c with
      | isTrue hb => isTrue (by rw [hv, hb])
      | isFalse hb => isFalse (by simp [hb])
    else isFalse (by simp [hv])
  | app n h as, app m g bs =>
    if hn : n = m then
      match withPtrEqDecEq h g fun _ => decideSame h g with
      | isTrue hh =>
        match decideSameAll as bs with
        | isTrue ha => isTrue (by rw [hn, hh, ha])
        | isFalse ha => isFalse (by simp [ha])
      | isFalse hh => isFalse (by simp [hh])
    else isFalse (by simp [hn])
  | var _, native _ | var _, foreign _ | var _, named _ _ | var _, lam _ _ | var _, app _ _ _ =>
    isFalse (by simp)
  | native _, var _ | native _, foreign _ | native _, named _ _ | native _, lam _ _
  | native _, app _ _ _ => isFalse (by simp)
  | foreign _, var _ | foreign _, native _ | foreign _, named _ _ | foreign _, lam _ _
  | foreign _, app _ _ _ => isFalse (by simp)
  | named _ _, var _ | named _ _, native _ | named _ _, foreign _ | named _ _, lam _ _
  | named _ _, app _ _ _ => isFalse (by simp)
  | lam _ _, var _ | lam _ _, native _ | lam _ _, foreign _ | lam _ _, named _ _
  | lam _ _, app _ _ _ => isFalse (by simp)
  | app _ _ _, var _ | app _ _ _, native _ | app _ _ _, foreign _ | app _ _ _, named _ _
  | app _ _ _, lam _ _ => isFalse (by simp)

/-- Decides whether two lists hold the same objects. -/
def decideSameAll : (ts us : List Term) → Decidable (ts = us)
  | [], [] => isTrue rfl
  | [], _ :: _ => isFalse (by simp)
  | _ :: _, [] => isFalse (by simp)
  | t :: ts, u :: us =>
    match withPtrEqDecEq t u fun _ => decideSame t u with
    | isTrue ht =>
      match decideSameAll ts us with
      | isTrue hts => isTrue (by rw [ht, hts])
      | isFalse hts => isFalse (by simp [hts])
    | isFalse ht => isFalse (by simp [ht])

end

instance : DecidableEq Term := fun t u => withPtrEqDecEq t u fun _ => decideSame t u

end Combinatory.Term
