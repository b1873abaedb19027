import MulleObjC.Invocation.Owned

/-!
# The objects in a slot

Where the platform puts the owned members of a type, and which objects of an invocation
are those whose access is transferred along with that of the invocation.
-/

namespace MulleObjC.Invocation

namespace Ty

mutual

/-- The owned members of a value that starts at an offset, where the platform puts them.
A union does not say which of its members it holds. -/
def layout : Ty → ℕ → List Member
  | scalar _, _ | cls, _ | assignId, _ | union _, _ => []
  | retainId, o => [⟨.retainId, o⟩]
  | copyId, o => [⟨.copyId, o⟩]
  | charPtr, o => [⟨.charPtr, o⟩]
  | array count member, o =>
    (List.range count).flatMap fun i => member.layout (o + i * member.size)
  | struct members, o => layoutMembers members o 0

/-- The owned members of the members of a struct that starts at an offset, from a distance
to it on. -/
def layoutMembers : List Ty → ℕ → ℕ → List Member
  | [], _, _ => []
  | t :: ts, o, c =>
    t.layout (o + alignUp c (2 ^ t.alignmentLog)) ++
      layoutMembers ts o (alignUp c (2 ^ t.alignmentLog) + t.size)

end

end Ty

namespace TypeInfo

/-- The offsets of the objects in a slot: of the whole slot, if it has the type of an
object, else of its retained and copied members. -/
def objectOffsets (info : TypeInfo) : List ℕ :=
  match info.type with
  | .cls | .assignId | .retainId | .copyId => [info.invocationOffset]
  | t => ((t.layout 0).filter (·.kind.resource = .object)).map fun m =>
      info.invocationOffset + m.offset

/-- The walk over the slot returns, and finds the owned members where they are. -/
structure WalkedRight (info : TypeInfo) : Prop where
  hasOwnedUnion : info.type.hasOwnedUnion = false
  members : info.ownedMembers.members = info.type.layout 0

variable {info : TypeInfo}

/-- A walk that finds the owned members finds the objects. -/
theorem objects_of_walkedRight (h : info.WalkedRight)
    (hoffsets : info.objectOffsets =
      ((info.type.layout 0).filter (·.kind.resource = .object)).map fun m =>
        info.invocationOffset + m.offset) :
    (info.slotMembers.filter (·.kind.resource = .object)).map Member.offset =
      info.objectOffsets := by
  rw [hoffsets, ← h.members, slotMembers, List.filter_map, List.map_map]
  rfl

/-- Such a walk does not throw. -/
theorem offset_of_walkedRight (h : info.WalkedRight) : info.ownedMembers.offset.isSome := by
  have hwalk : (info.type.walk 0).offset.isSome := by
    obtain ⟨o, ho⟩ := info.type.walk_offset h.hasOwnedUnion 0
    simp [ho]
  unfold ownedMembers
  split <;> try rfl
  -- an array, a struct or a union
  all_goals
    split
    · exact hwalk
    · rfl

end TypeInfo

end MulleObjC.Invocation
