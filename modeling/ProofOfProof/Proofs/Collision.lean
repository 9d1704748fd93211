import Mathlib.Data.List.Nodup
import ProofOfProof.Hash

/-! Collisions among strings that were hashed. What two computations have to agree on, because they
come to the same hash, they agree on unless their own strings hold a collision. -/

namespace ProofOfProof

variable {α : Type} {hash : Bytes → α} {strings : List Bytes}

/-- Two different strings of a list have the same hash. -/
def Collision (hash : Bytes → α) (strings : List Bytes) : Prop :=
  ∃ x ∈ strings, ∃ y ∈ strings, x ≠ y ∧ hash x = hash y

theorem eq_of_not_collision (h : ¬ Collision hash strings) {x y : Bytes} (hx : x ∈ strings)
    (hy : y ∈ strings) (he : hash x = hash y) : x = y := by
  by_cases hxy : x = y
  · exact hxy
  · exact absurd ⟨x, hx, y, hy, hxy, he⟩ h

theorem nodup_map_of_not_collision (h : ¬ Collision hash strings) {xs : List Bytes}
    (hx : xs ⊆ strings) (hnd : xs.Nodup) : (xs.map hash).Nodup :=
  hnd.map_on fun _ ha _ hb he => eq_of_not_collision h (hx ha) (hx hb) he

theorem eq_of_map_eq (h : ¬ Collision hash strings) {xs ys : List Bytes} (hx : xs ⊆ strings)
    (hy : ys ⊆ strings) (he : xs.map hash = ys.map hash) : xs = ys := by
  induction xs generalizing ys with
  | nil => exact (List.map_eq_nil_iff.mp he.symm).symm
  | cons x xs ih =>
    cases ys with
    | nil => cases he
    | cons y ys =>
      obtain ⟨hhash, hrest⟩ := List.cons.inj he
      obtain ⟨hxs, hx⟩ := List.cons_subset.mp hx
      obtain ⟨hys, hy⟩ := List.cons_subset.mp hy
      rw [eq_of_not_collision h hxs hys hhash, ih hx hy hrest]

/-- What two computations hash `x` and `y` for, over strings `s` and `t` of their own. -/
theorem eq_or_collision {x y : Bytes} {s t : List Bytes} {other : Prop}
    (h : ∀ all, ¬ Collision hash all → s ⊆ all → t ⊆ all → hash x = hash y ∨ other) :
    x = y ∨ Collision hash (x :: y :: (s ++ t)) ∨ other := by
  by_cases hc : Collision hash (x :: y :: (s ++ t))
  · exact .inr (.inl hc)
  have hs : s ⊆ x :: y :: (s ++ t) := fun z hz => by simp [hz]
  have ht : t ⊆ x :: y :: (s ++ t) := fun z hz => by simp [hz]
  rcases h _ hc hs ht with he | hother
  · exact .inl (eq_of_not_collision hc (by simp) (by simp) he)
  · exact .inr (.inr hother)

theorem Fixed.append_inj {n : Nat} {a b : Fixed n} {x y : Bytes} (h : a.val ++ x = b.val ++ y) :
    a = b ∧ x = y := by
  have hlen : a.val.length = b.val.length := by rw [a.property, b.property]
  obtain ⟨hfront, hback⟩ := List.append_inj h hlen
  exact ⟨Subtype.ext hfront, hback⟩

end ProofOfProof
