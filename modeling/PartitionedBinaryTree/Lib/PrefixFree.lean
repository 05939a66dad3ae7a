/-
# Tags in front of strings

A program that hashes for several purposes puts a tag in front of each string.  When no tag is a
prefix of another one, a tagged string tells its tag and what follows it
(`PrefixFree.eq_of_append_eq`), and equal images of tagged strings come from one tag and one
string, or collide (`PrefixFree.tag_eq_or_collision`).
-/
import PartitionedBinaryTree.Lib.QueryLog

variable {ι α δ : Type}

/-- Among these items no tag is a prefix of the tag of another item. -/
def PrefixFree (items : List ι) (tag : ι → List α) : Prop :=
  ∀ i ∈ items, ∀ j ∈ items, tag i <+: tag j → i = j

instance [DecidableEq ι] [DecidableEq α] (items : List ι) (tag : ι → List α) :
    Decidable (PrefixFree items tag) :=
  inferInstanceAs (Decidable (∀ i ∈ items, ∀ j ∈ items, tag i <+: tag j → i = j))

namespace PrefixFree

variable {items : List ι} {tag : ι → List α} {i j : ι} {x y : List α}

/-- A tagged string tells its tag and what follows it. -/
theorem eq_of_append_eq (h : PrefixFree items tag) (hi : i ∈ items) (hj : j ∈ items)
    (heq : tag i ++ x = tag j ++ y) : i = j ∧ x = y := by
  have hij : i = j := by
    rcases List.prefix_or_prefix_of_prefix (List.prefix_append (tag i) x)
      (heq ▸ List.prefix_append (tag j) y) with hpre | hpre
    · exact h i hi j hj hpre
    · exact (h j hj i hi hpre).symm
  subst hij
  exact ⟨rfl, List.append_cancel_left heq⟩

/-- Equal images of tagged strings come from one tag and one string, or the strings collide. -/
theorem tag_eq_or_collision (h : PrefixFree items tag) (hi : i ∈ items) (hj : j ∈ items)
    {f : List α → δ} {qs : List (List α)} (hx : tag i ++ x ∈ qs) (hy : tag j ++ y ∈ qs)
    (heq : f (tag i ++ x) = f (tag j ++ y)) : (i = j ∧ x = y) ∨ Collision f qs := by
  rcases eq_or_collision hx hy heq with hsame | hcol
  · exact Or.inl (h.eq_of_append_eq hi hj hsame)
  · exact Or.inr hcol

end PrefixFree
