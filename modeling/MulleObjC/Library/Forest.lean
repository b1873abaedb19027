import Mathlib.Logic.Function.Basic
import Mathlib.Logic.Relation
import Mathlib.Order.WellFounded

/-!
# Forests

Every node has a parent or is a root, and the chains of parents end. A node can be put
between another node and its parent.
-/

namespace Forest

variable {Node : Type*} {parent : Node → Option Node} {m n : Node}

/-- Every chain of parents ends. -/
def Ends (parent : Node → Option Node) : Prop := WellFounded fun m n => parent n = some m

/-- A node is another node or below it. -/
def Below (parent : Node → Option Node) : Node → Node → Prop :=
  Relation.ReflTransGen fun n m => parent n = some m

theorem Ends.parent_ne_self (hends : Ends parent) (n : Node) : parent n ≠ some n := by
  intro hn
  exact hends.asymmetric n n hn hn

/-- The chains end in a forest that embeds into another one. -/
theorem Ends.of_embedding {Other : Type*} {parent' : Other → Option Other} (f : Other → Node)
    (hf : ∀ a b, parent' a = some b → parent (f a) = some (f b)) (hends : Ends parent) :
    Ends parent' :=
  Subrelation.wf (fun {b a} hparent => hf a b hparent) (InvImage.wf f hends)

section Update

variable [DecidableEq Node]

/-- Chains still end after a sibling was put between a node and its parent. -/
theorem Ends.update (hends : Ends parent) (hne : m ≠ n) (hsibling : parent m = parent n) :
    Ends (Function.update parent n (some m)) := by
  have hother : ∀ a, a ≠ n →
      (∀ b, parent a = some b → Acc (fun b a => Function.update parent n (some m) a = some b) b) →
        Acc (fun b a => Function.update parent n (some m) a = some b) a := by
    intro a ha hparents
    refine ⟨a, fun b hb => hparents b ?_⟩
    rwa [Function.update_of_ne ha] at hb
  refine ⟨fun a => hends.induction a fun a ih => ?_⟩
  by_cases ha : a = n
  · -- The chain of the node now goes through its sibling.
    subst ha
    refine ⟨a, fun b hb => ?_⟩
    rw [Function.update_self, Option.some.injEq] at hb
    subst hb
    exact hother m hne fun b hb => ih b (hsibling ▸ hb)
  · exact hother a ha ih

omit [DecidableEq Node] in
theorem Below.of_eq_off {parent' : Node → Option Node} (hoff : ∀ a, a ≠ n → parent' a = parent a)
    {a : Node} (h : Below parent a n) : Below parent' a n := by
  induction h using Relation.ReflTransGen.head_induction_on with
  | refl => exact .refl
  | @head b c hparent _ ih =>
    by_cases hb : b = n
    · subst hb
      exact .refl
    · exact .head ((hoff b hb).trans hparent) ih

/-- The parent of a node does not matter for what is below it. -/
theorem below_update {a : Node} {x : Option Node} :
    Below (Function.update parent n x) a n ↔ Below parent a n := by
  have hoff : ∀ b, b ≠ n → Function.update parent n x b = parent b :=
    fun b hb => Function.update_of_ne hb x parent
  exact ⟨.of_eq_off fun b hb => (hoff b hb).symm, .of_eq_off hoff⟩

end Update

end Forest
