import Mathlib.Data.Fintype.Card
import Mathlib.Logic.Relation

/-!
# Depth-first search

A search visits the children of a node, except for those it has seen before. What it
does with a node comes before its children or after them. A search of a finite graph
ends, and has visited the nodes that the root reaches, each of them once.
-/

namespace DepthFirst

variable {Node : Type*}

/-- One node is a child of another. -/
def Child (children : Node → List Node) (x y : Node) : Prop := y ∈ children x

/-- A path from one node to another. -/
def Reaches (children : Node → List Node) : Node → Node → Prop :=
  Relation.ReflTransGen (Child children)

section Search

variable [DecidableEq Node]

/-- Visit the nodes of a list that were not seen, with the nodes seen afterwards and the
nodes visited, in order. -/
def visitAll (visit : Node → Finset Node → Option (Finset Node × List Node)) :
    List Node → Finset Node → Option (Finset Node × List Node)
  | [], seen => some (seen, [])
  | c :: cs, seen =>
    if c ∈ seen then visitAll visit cs seen
    else (visit c (insert c seen)).bind fun r =>
      (visitAll visit cs r.1).map fun q => (q.1, r.2 ++ q.2)

/-- Visit a node that was just seen, if `fuel` calls may be open. -/
def visit (children : Node → List Node) (post : Bool) :
    ℕ → Node → Finset Node → Option (Finset Node × List Node)
  | 0, _, _ => none
  | fuel + 1, x, seen =>
    (visitAll (visit children post fuel) (children x) seen).map fun r =>
      (r.1, if post then r.2 ++ [x] else x :: r.2)

end Search

/-- A search from some roots has seen what it had seen before, and visited the rest of what
they reach. -/
structure Explored (children : Node → List Node) (roots : List Node) (seen seen' : Finset Node)
    (order : List Node) : Prop where
  mem_iff : ∀ x, x ∈ seen' ↔ x ∈ seen ∨ x ∈ order
  nodup : order.Nodup
  fresh : ∀ x ∈ order, x ∉ seen
  roots_seen : ∀ x ∈ roots, x ∈ seen'
  closed : ∀ x ∈ order, ∀ y ∈ children x, y ∈ seen'
  reached : ∀ x ∈ order, ∃ r ∈ roots, Reaches children r x

variable {children : Node → List Node} {post : Bool} {seen seen₁ seen₂ : Finset Node}
  {order order₁ order₂ roots : List Node} {x : Node}

namespace Explored

theorem subset (h : Explored children roots seen seen₁ order) : seen ⊆ seen₁ :=
  fun y hy => (h.mem_iff y).mpr (.inl hy)

protected theorem nil : Explored children [] seen seen [] where
  mem_iff := by simp
  nodup := .nil
  fresh := by simp
  roots_seen := by simp
  closed := by simp
  reached := by simp

/-- A root that was seen before is left out. -/
theorem skip (hx : x ∈ seen) (h : Explored children roots seen seen₁ order) :
    Explored children (x :: roots) seen seen₁ order where
  mem_iff := h.mem_iff
  nodup := h.nodup
  fresh := h.fresh
  roots_seen := List.forall_mem_cons.mpr ⟨h.subset hx, h.roots_seen⟩
  closed := h.closed
  reached y hy := by
    obtain ⟨r, hr, hreach⟩ := h.reached y hy
    exact ⟨r, List.mem_cons_of_mem x hr, hreach⟩

/-- Two searches, one after the other. -/
theorem cons (hfirst : Explored children [x] seen seen₁ order₁)
    (hrest : Explored children roots seen₁ seen₂ order₂) :
    Explored children (x :: roots) seen seen₂ (order₁ ++ order₂) where
  mem_iff y := by
    rw [hrest.mem_iff, hfirst.mem_iff, List.mem_append, or_assoc]
  nodup := by
    refine List.nodup_append.mpr ⟨hfirst.nodup, hrest.nodup, ?_⟩
    rintro y hy z hz rfl
    exact hrest.fresh y hz ((hfirst.mem_iff y).mpr (.inr hy))
  fresh y hy hseen := by
    rcases List.mem_append.mp hy with hy | hy
    · exact hfirst.fresh y hy hseen
    · exact hrest.fresh y hy (hfirst.subset hseen)
  roots_seen := by
    refine List.forall_mem_cons.mpr ⟨hrest.subset ?_, hrest.roots_seen⟩
    exact hfirst.roots_seen x (List.mem_singleton_self x)
  closed y hy z hz := by
    rcases List.mem_append.mp hy with hy | hy
    · exact hrest.subset (hfirst.closed y hy z hz)
    · exact hrest.closed y hy z hz
  reached y hy := by
    rcases List.mem_append.mp hy with hy | hy
    · obtain ⟨r, hr, hreach⟩ := hfirst.reached y hy
      exact ⟨r, List.mem_cons.mpr (.inl (List.mem_singleton.mp hr)), hreach⟩
    · obtain ⟨r, hr, hreach⟩ := hrest.reached y hy
      exact ⟨r, List.mem_cons_of_mem x hr, hreach⟩

/-- A node is visited with its children. -/
theorem node [DecidableEq Node] (hx : x ∉ seen)
    (h : Explored children (children x) (insert x seen) seen₁ order₁)
    (hperm : order.Perm (x :: order₁)) : Explored children [x] seen seen₁ order where
  mem_iff y := by
    rw [h.mem_iff, Finset.mem_insert, hperm.mem_iff, List.mem_cons]
    tauto
  nodup := by
    refine hperm.nodup_iff.mpr (List.nodup_cons.mpr ⟨fun hmem => ?_, h.nodup⟩)
    exact h.fresh x hmem (Finset.mem_insert_self x seen)
  fresh y hy := by
    rcases List.mem_cons.mp (hperm.mem_iff.mp hy) with rfl | hmem
    · exact hx
    · exact fun hseen => h.fresh y hmem (Finset.mem_insert_of_mem hseen)
  roots_seen := by
    simpa using h.subset (Finset.mem_insert_self x seen)
  closed y hy := by
    rcases List.mem_cons.mp (hperm.mem_iff.mp hy) with rfl | hmem
    · exact h.roots_seen
    · exact h.closed y hmem
  reached y hy := by
    refine ⟨x, List.mem_singleton_self x, ?_⟩
    rcases List.mem_cons.mp (hperm.mem_iff.mp hy) with rfl | hmem
    · exact .refl
    · obtain ⟨c, hc, hreach⟩ := h.reached y hmem
      exact .head hc hreach

/-- A search that had seen nothing visits what its roots reach. -/
theorem mem_order_iff_exists (h : Explored children roots ∅ seen₁ order) (y : Node) :
    y ∈ order ↔ ∃ r ∈ roots, Reaches children r y := by
  have hmem : ∀ z, z ∈ seen₁ ↔ z ∈ order := fun z => by simpa using h.mem_iff z
  refine ⟨h.reached y, ?_⟩
  rintro ⟨r, hr, hreach⟩
  induction hreach with
  | refl => exact (hmem r).mp (h.roots_seen r hr)
  | tail _ hchild ih => exact (hmem _).mp (h.closed _ ih _ hchild)

/-- A search that had seen nothing visits what its root reaches. -/
theorem mem_order_iff (h : Explored children [x] ∅ seen₁ order) (y : Node) :
    y ∈ order ↔ Reaches children x y := by
  simpa using h.mem_order_iff_exists y

end Explored

variable [DecidableEq Node]

/-- A list is visited in parts. -/
theorem visitAll_append {visit : Node → Finset Node → Option (Finset Node × List Node)}
    (cs ds : List Node) (seen : Finset Node) :
    visitAll visit (cs ++ ds) seen =
      (visitAll visit cs seen).bind fun r =>
        (visitAll visit ds r.1).map fun q => (q.1, r.2 ++ q.2) := by
  induction cs generalizing seen with
  | nil =>
    cases hds : visitAll visit ds seen <;> simp [visitAll, hds]
  | cons c cs ih =>
    rw [List.cons_append, visitAll, visitAll]
    split
    · exact ih seen
    · cases visit c (insert c seen) with
      | none => rfl
      | some r =>
        simp only [Option.bind_some, ih]
        cases visitAll visit cs r.1 with
        | none => rfl
        | some q => simp [List.append_assoc, Function.comp_def]

/-- If every visit explores, so does a visit to the nodes of a list. -/
theorem explored_visitAll {visit : Node → Finset Node → Option (Finset Node × List Node)}
    (hvisit : ∀ {c s s' l}, c ∉ s → visit c (insert c s) = some (s', l) →
      Explored children [c] s s' l)
    (h : visitAll visit roots seen = some (seen₁, order)) :
    Explored children roots seen seen₁ order := by
  induction roots generalizing seen order with
  | nil =>
    obtain ⟨rfl, rfl⟩ := Prod.mk.inj (Option.some.inj h)
    exact .nil
  | cons c cs ih =>
    rw [visitAll] at h
    split at h
    case isTrue hc => exact (ih h).skip hc
    case isFalse hc =>
      obtain ⟨⟨s, l⟩, hfirst, hrest⟩ := Option.bind_eq_some_iff.mp h
      obtain ⟨⟨s', l'⟩, hcs, heq⟩ := Option.map_eq_some_iff.mp hrest
      obtain ⟨rfl, rfl⟩ := Prod.mk.inj heq
      exact (hvisit hc hfirst).cons (ih hcs)

/-- A visit explores what a node reaches. -/
theorem explored_visit {fuel : ℕ} (hx : x ∉ seen)
    (h : visit children post fuel x (insert x seen) = some (seen₁, order)) :
    Explored children [x] seen seen₁ order := by
  induction fuel generalizing x seen seen₁ order with
  | zero => cases h
  | succ fuel ih =>
    obtain ⟨⟨s, l⟩, hall, heq⟩ := Option.map_eq_some_iff.mp h
    obtain ⟨rfl, rfl⟩ := Prod.mk.inj heq
    refine (explored_visitAll (fun hc hvisit => ih hc hvisit) hall).node hx ?_
    cases post with
    | true => exact List.perm_append_singleton x l
    | false => exact .refl _

/-- If no visit to a node runs out of fuel, neither does a visit to the nodes of a list. -/
theorem exists_visitAll {visit : Node → Finset Node → Option (Finset Node × List Node)}
    (hvisit : ∀ c s, seen ⊆ s → c ∉ s → ∃ s' l, visit c (insert c s) = some (s', l) ∧ s ⊆ s')
    (roots : List Node) : ∃ s' l, visitAll visit roots seen = some (s', l) := by
  induction roots generalizing seen with
  | nil => exact ⟨seen, [], rfl⟩
  | cons c cs ih =>
    rw [visitAll]
    split
    · exact ih hvisit
    · next hc =>
      obtain ⟨s, l, hfirst, hsubset⟩ := hvisit c seen (Finset.Subset.refl seen) hc
      obtain ⟨s', l', hrest⟩ := ih fun d t ht hd => hvisit d t (hsubset.trans ht) hd
      exact ⟨s', l ++ l', by simp [hfirst, hrest]⟩

variable [Fintype Node]

/-- The nodes that are still to be seen suffice as fuel. -/
theorem exists_visit {fuel : ℕ} (hx : x ∉ seen) (hfuel : seenᶜ.card ≤ fuel) :
    ∃ s' l, visit children post fuel x (insert x seen) = some (s', l) := by
  induction fuel generalizing x seen with
  | zero =>
    have hempty : seenᶜ = ∅ := Finset.card_eq_zero.mp (Nat.le_zero.mp hfuel)
    exact absurd (Finset.mem_compl.mpr hx) (by simp [hempty])
  | succ fuel ih =>
    have hless : (insert x seen)ᶜ.card < seenᶜ.card := by
      refine Finset.card_lt_card (Finset.ssubset_iff_subset_ne.mpr ⟨?_, fun heq => ?_⟩)
      · exact Finset.compl_subset_compl.mpr (Finset.subset_insert x seen)
      · have hmem : x ∈ (insert x seen)ᶜ := heq ▸ Finset.mem_compl.mpr hx
        exact Finset.mem_compl.mp hmem (Finset.mem_insert_self x seen)
    have hchild : ∀ c s, insert x seen ⊆ s → c ∉ s →
        ∃ s' l, visit children post fuel c (insert c s) = some (s', l) ∧ s ⊆ s' := by
      intro c s hsubset hc
      have hle : sᶜ.card ≤ (insert x seen)ᶜ.card :=
        Finset.card_le_card (Finset.compl_subset_compl.mpr hsubset)
      obtain ⟨s', l, hvisit⟩ := ih hc (by omega)
      exact ⟨s', l, hvisit, (explored_visit hc hvisit).subset⟩
    obtain ⟨s', l, hall⟩ := exists_visitAll hchild (children x)
    exact ⟨s', if post then l ++ [x] else x :: l, by simp [visit, hall]⟩

/-- A search of a finite graph ends and visits what the root reaches, each node once. -/
theorem exists_search (children : Node → List Node) (post : Bool) {fuel : ℕ} (root : Node)
    (hfuel : Fintype.card Node ≤ fuel) :
    ∃ seen order, visit children post fuel root {root} = some (seen, order) ∧
      order.Nodup ∧ ∀ x, x ∈ order ↔ Reaches children root x := by
  have hroot : root ∉ (∅ : Finset Node) := Finset.notMem_empty root
  have hvisited : ∃ s l, visit children post fuel root (insert root ∅) = some (s, l) :=
    exists_visit hroot ((Finset.card_le_univ _).trans hfuel)
  obtain ⟨seen, order, hvisit⟩ := hvisited
  have hexplored := explored_visit hroot hvisit
  exact ⟨seen, order, hvisit, hexplored.nodup, hexplored.mem_order_iff⟩

/-- A search from several roots ends and visits what they reach, each node once. -/
theorem exists_searchAll (children : Node → List Node) (post : Bool) {fuel : ℕ}
    (roots : List Node) (hfuel : Fintype.card Node ≤ fuel) :
    ∃ seen order, visitAll (visit children post fuel) roots ∅ = some (seen, order) ∧
      order.Nodup ∧ ∀ x, x ∈ order ↔ ∃ r ∈ roots, Reaches children r x := by
  have hvisit : ∀ c s, ∅ ⊆ s → c ∉ s →
      ∃ s' l, visit children post fuel c (insert c s) = some (s', l) ∧ s ⊆ s' := by
    intro c s _ hc
    have hvisited : ∃ s' l, visit children post fuel c (insert c s) = some (s', l) :=
      exists_visit hc ((Finset.card_le_univ _).trans hfuel)
    obtain ⟨s', l, hvisit⟩ := hvisited
    exact ⟨s', l, hvisit, (explored_visit hc hvisit).subset⟩
  obtain ⟨seen, order, hall⟩ := exists_visitAll hvisit roots
  have hexplored := explored_visitAll (fun hc hvisit => explored_visit hc hvisit) hall
  exact ⟨seen, order, hall, hexplored.nodup, hexplored.mem_order_iff_exists⟩

end DepthFirst
