import Mathlib.Tactic.Common
import MulleObjC.NSThread.Methods

/-!
# Phases of a thread object

In front of each statement it is known whether the thread object still holds its argument,
and which thread has gained access to it last. The statement does what is known behind it.
-/

namespace MulleObjC.NSThread

/-- The method that a statement belongs to. -/
inductive Role
  | start
  | thread
  | join
  | dealloc
  deriving DecidableEq

/-- The method of a statement, with `-finalize` where it is called. -/
def Statement.role {Thread : Type*} : Statement Thread → Role
  | .setDetached _ | .retain _ | .relinquish _ | .createThread _ => .start
  | .newPoolConfiguration | .gain | .setThreadDidGainAccess | .main | .releaseThreadObject
  | .performFinalize .exit | .autoreleaseInvocation .exit | .autoreleaseFunctionArgument .exit
  | .relinquishInFinalize .exit => .thread
  | .join | .gainInJoin | .autoreleaseInJoin => .join
  | .performFinalize .dealloc | .autoreleaseInvocation .dealloc
  | .autoreleaseFunctionArgument .dealloc | .relinquishInFinalize .dealloc
  | .gainInDealloc | .releaseInvocation | .releaseFunctionArgument => .dealloc

/-- The new thread is between its gain and what `-finalize` does about access. -/
def Statement.usesArgument {Thread : Type*} : Statement Thread → Bool
  | .setThreadDidGainAccess | .main | .performFinalize .exit | .autoreleaseInvocation .exit
  | .autoreleaseFunctionArgument .exit | .relinquishInFinalize .exit => true
  | _ => false

/-- The references to the thread object that a method keeps in front of a statement. -/
def Statement.references {Thread : Type*} : Statement Thread → ℕ
  | .relinquish _ | .createThread _ => 1
  | statement => if statement.role = .thread then 1 else 0

theorem Statement.references_of_role {Thread : Type*} {statement : Statement Thread}
    (h : statement.role = .thread) : statement.references = 1 := by
  unfold references
  split
  · rfl
  · rfl
  · rw [if_pos h]

theorem Statement.references_performFinalize {Thread : Type*} :
    (performFinalize .dealloc : Statement Thread).references = 0 := rfl

theorem Statement.references_join {Thread : Type*} : (join : Statement Thread).references = 0 := rfl

namespace ThreadObject

variable {Thread : Type*} (creator t : Thread) (o : ThreadObject Thread)

/-- The argument is held, and nothing has been done with it yet. -/
@[mk_iff]
structure Unused : Prop where
  holds : o.holds = true
  accessor : o.accessor = some creator
  notGained : o.threadDidGainAccess = false
  notFinalized : o.isFinalized = false
  notJoinable : o.isJoinable = false

/-- The thread `t` uses the argument, behind its gain. -/
@[mk_iff]
structure Uses (didGain didFinalize canJoin : Bool) : Prop where
  holds : o.holds = true
  accessor : o.accessor = some t
  gained : o.threadDidGainAccess = didGain
  finalized : o.isFinalized = didFinalize
  joinable : o.isJoinable = canJoin

/-- Access to the argument is relinquished and not gained yet. -/
@[mk_iff]
structure Between (didGain canJoin : Bool) : Prop where
  holds : o.holds = true
  accessor : o.accessor = none
  gained : o.threadDidGainAccess = didGain
  finalized : o.isFinalized = didGain
  joinable : o.isJoinable = canJoin

/-- The argument has been given up, and some thread has access to it. -/
@[mk_iff]
structure Finished : Prop where
  notHeld : o.holds = false
  accessor : o.accessor.isSome = true

/-- The new thread `t` has finalized the thread object: it has given up the argument, if it is
detached, and access to it, if it is not. -/
@[mk_iff]
structure HandedOn : Prop where
  gained : o.threadDidGainAccess = true
  finalized : o.isFinalized = true
  joinable : o.isJoinable = true
  detached : o.isDetached = true → o.holds = false ∧ o.accessor = some t
  undetached : o.isDetached = false → o.holds = true ∧ o.accessor = none

/-- What is found in `-dealloc`. -/
@[mk_iff]
structure Last : Prop where
  unstarted : o.threadDidGainAccess = false →
    o.holds = true ∧ o.isDetached = false ∧ o.accessor = some creator
  started : o.threadDidGainAccess = true → o.isFinalized = true ∧
    (o.holds = true ∧ o.accessor = none ∨ o.Finished)

/-- The deallocating thread `t` gives up what is left. -/
@[mk_iff]
structure Leftover : Prop where
  accessor : o.accessor.isSome = true
  gained : o.threadDidGainAccess = true → o.holds = true → o.accessor = some t

/-- What is known in front of a statement of the thread `t`. -/
def Expects : Statement Thread → Prop
  | .setDetached _ | .retain _ | .relinquish _ => o.Unused creator
  | .createThread _ => o.Between false false
  | .newPoolConfiguration | .gain => o.Between false true
  | .setThreadDidGainAccess => o.Uses t false false true
  | .main | .performFinalize .exit => o.Uses t true false true
  | .autoreleaseInvocation .exit => o.Uses t true true true ∧ o.isDetached = true
  | .autoreleaseFunctionArgument .exit =>
    o.Uses t true true true ∧ o.isDetached = true ∧ o.isObjectFunctionArgument = true
  | .relinquishInFinalize .exit => o.Uses t true true true ∧ o.isDetached = false
  | .releaseThreadObject => o.HandedOn t
  | .join => o.isDetached = false ∧ o.isJoinable = true
  | .gainInJoin => o.isDetached = false ∧ o.Between true false
  | .autoreleaseInJoin => o.isDetached = false ∧ o.Uses t true true false
  | .performFinalize .dealloc | .gainInDealloc => o.Last creator
  | .autoreleaseInvocation .dealloc | .autoreleaseFunctionArgument .dealloc
  | .relinquishInFinalize .dealloc => False
  | .releaseInvocation => o.Leftover t
  | .releaseFunctionArgument => o.Leftover t ∧ o.isObjectFunctionArgument = true

/-- One of the two places of the argument is in use. -/
def OneSlot : Prop :=
  if o.isObjectFunctionArgument then o.hasInvocation = false else o.hasFunctionArgument = false

/-- What a call does about the argument. -/
def Effect (o o' : ThreadObject Thread) (t : Thread) : Option Call → Prop
  | none | some .pushPool => o'.holds = o.holds ∧ o'.accessor = o.accessor
  | some .relinquish => o.holds = true ∧ o.accessor.isSome = true ∧ o'.holds = true ∧ o'.accessor = none
  | some .gain => o.holds = true ∧ o.accessor = none ∧ o'.holds = true ∧ o'.accessor = some t
  | some .autorelease | some .release =>
    o.holds = true ∧ o'.holds = false ∧ o'.accessor = o.accessor

variable {creator t o}

theorem hasArgument_eq_holds (ho : o.OneSlot) : o.hasArgument = o.holds := by
  unfold OneSlot at ho
  unfold hasArgument holds
  split at ho
  · simp [*]
  · simp [*]

/-- What a method leaves behind. -/
def Ends (t : Thread) (o : ThreadObject Thread) : Role → Prop
  | .start => o.Between false true
  | .thread => o.HandedOn t
  | .join => o.isJoinable = false ∧ o.threadDidGainAccess = true ∧ o.isFinalized = true ∧ o.Finished
  | .dealloc => o.Finished

/-- What a statement of the thread `t` leaves behind. -/
structure Leaves (creator t : Thread) (o : ThreadObject Thread) (role : Role)
    (r : Outcome Thread) : Prop where
  slot : r.object.OneSlot
  effect : o.Effect r.object t r.call
  next : ∀ next ∈ r.next, r.object.Expects creator t next
  ends : r.next = none → r.object.Ends t role

theorem relinquish_of_holds (ho : o.OneSlot) (h : o.holds = true) (next : Statement Thread) :
    o.relinquish next = ⟨some .relinquish, some next, { o with accessor := none }⟩ := by
  rw [relinquish, if_pos ((hasArgument_eq_holds ho).trans h)]

theorem gain_of_holds (ho : o.OneSlot) (h : o.holds = true) (t : Thread) (next : Statement Thread) :
    o.gain t next = ⟨some .gain, some next, { o with accessor := some t }⟩ := by
  rw [gain, if_pos ((hasArgument_eq_holds ho).trans h)]

theorem gain_of_not_holds (ho : o.OneSlot) (h : o.holds = false) (t : Thread)
    (next : Statement Thread) : o.gain t next = ⟨none, some next, o⟩ := by
  rw [gain, if_neg (by simp [hasArgument_eq_holds ho, h])]

theorem giveUpInvocation_of_function (ho : o.OneSlot) (h : o.isObjectFunctionArgument = true)
    (call : Call) (next : Option (Statement Thread)) :
    o.giveUpInvocation call next = ⟨none, next, o⟩ := by
  rw [OneSlot, if_pos h] at ho
  have hobject : { o with hasInvocation := false } = o := by
    cases o
    simpa using ho.symm
  rw [giveUpInvocation, if_neg (by simp [ho]), hobject]

/-- The argument is given up if it is still held. -/
structure GivesUp (o : ThreadObject Thread) (call : Call) (r : Outcome Thread) : Prop where
  slot : r.object.OneSlot
  notHeld : r.object.holds = false
  accessor : r.object.accessor = o.accessor
  call : r.call = if o.holds then some call else none

theorem giveUpInvocation_givesUp (ho : o.OneSlot) (h : o.isObjectFunctionArgument = false)
    (call : Call) (next : Option (Statement Thread)) :
    o.GivesUp call (o.giveUpInvocation call next) := by
  have hslot : o.hasFunctionArgument = false := by simpa [OneSlot, h] using ho
  constructor
  · simpa [giveUpInvocation, OneSlot, h] using hslot
  · simpa [giveUpInvocation, holds] using hslot
  · rfl
  · simp [giveUpInvocation, holds, hslot]

theorem giveUpFunctionArgument_givesUp (ho : o.OneSlot) (h : o.isObjectFunctionArgument = true)
    (call : Call) (next : Option (Statement Thread)) :
    o.GivesUp call (o.giveUpFunctionArgument call next) := by
  have hslot : o.hasInvocation = false := by simpa [OneSlot, h] using ho
  constructor
  · simpa [giveUpFunctionArgument, OneSlot, h] using hslot
  · simpa [giveUpFunctionArgument, holds] using hslot
  · rfl
  · simp [giveUpFunctionArgument, holds, hslot]

theorem GivesUp.effect {call : Call} {r : Outcome Thread} (h : o.GivesUp call r)
    (hcall : call = .autorelease ∨ call = .release) : o.Effect r.object t r.call := by
  rw [h.call]
  split_ifs with hholds
  · obtain rfl | rfl := hcall
    · exact ⟨hholds, h.notHeld, h.accessor⟩
    · exact ⟨hholds, h.notHeld, h.accessor⟩
  · exact ⟨h.notHeld.trans (by simpa using hholds), h.accessor⟩

theorem HandedOn.last (h : o.HandedOn t) : o.Last creator := by
  refine ⟨fun hgained => ?_, fun _ => ⟨h.finalized, ?_⟩⟩
  · simp [h.gained] at hgained
  · cases hdetached : o.isDetached with
    | true =>
      obtain ⟨hholds, haccessor⟩ := h.detached hdetached
      exact .inr ⟨hholds, by simp [haccessor]⟩
    | false => exact .inl (h.undetached hdetached)

theorem Last.withCounts (h : o.Last creator) (users retainCount : ℕ) :
    Last creator { o with users := users, retainCount := retainCount } :=
  ⟨h.unstarted, fun hgained =>
    ⟨(h.started hgained).1, (h.started hgained).2.imp_right fun h => ⟨h.1, h.2⟩⟩⟩

theorem exec_leaves (ho : o.OneSlot) {statement : Statement Thread}
    (h : o.Expects creator t statement) {u : Thread} (hjoin : statement = .join → o.HandedOn u) :
    o.Leaves creator t statement.role (o.exec t statement) := by
  cases statement with
  | setDetached u | retain u =>
    exact ⟨ho, ⟨rfl, rfl⟩, by rintro _ ⟨⟩; exact ⟨h.1, h.2, h.3, h.4, h.5⟩, nofun⟩
  | relinquish u =>
    rw [exec, relinquish_of_holds ho h.holds]
    exact ⟨ho, ⟨h.holds, by simp [h.accessor], h.holds, rfl⟩,
      by rintro _ ⟨⟩; exact ⟨h.holds, rfl, h.notGained, h.notFinalized, h.notJoinable⟩, nofun⟩
  | createThread u =>
    exact ⟨ho, ⟨rfl, rfl⟩, nofun, fun _ => ⟨h.holds, h.accessor, h.gained, h.finalized, rfl⟩⟩
  | newPoolConfiguration => exact ⟨ho, ⟨rfl, rfl⟩, by rintro _ ⟨⟩; exact h, nofun⟩
  | gain =>
    rw [exec, gain_of_holds ho h.holds]
    exact ⟨ho, ⟨h.holds, h.accessor, h.holds, rfl⟩,
      by rintro _ ⟨⟩; exact ⟨h.holds, rfl, h.gained, h.finalized, h.joinable⟩, nofun⟩
  | setThreadDidGainAccess =>
    exact ⟨ho, ⟨rfl, rfl⟩,
      by rintro _ ⟨⟩; exact ⟨h.holds, h.accessor, rfl, h.finalized, h.joinable⟩, nofun⟩
  | main => exact ⟨ho, ⟨rfl, rfl⟩, by rintro _ ⟨⟩; exact h, nofun⟩
  | performFinalize next =>
    cases next with
    | exit =>
      have huses : o.Uses t true false true := h
      rw [exec, if_neg (by simp [huses.finalized])]
      refine ⟨ho, ⟨rfl, rfl⟩, ?_, nofun⟩
      rintro _ ⟨⟩
      split_ifs with hdetached hgained
      · exact ⟨⟨h.holds, h.accessor, h.gained, rfl, h.joinable⟩, hdetached⟩
      · exact ⟨⟨h.holds, h.accessor, h.gained, rfl, h.joinable⟩, by simpa using hdetached⟩
      · exact absurd huses.gained hgained
    | dealloc =>
      have hlast : o.Last creator := h
      by_cases hfinalized : o.isFinalized = true
      · rw [exec, if_pos hfinalized]
        exact ⟨ho, ⟨rfl, rfl⟩, by rintro _ ⟨⟩; exact hlast, nofun⟩
      · have hgained : ¬ o.threadDidGainAccess = true := fun h => hfinalized (hlast.started h).1
        obtain ⟨hholds, hdetached, haccessor⟩ := hlast.unstarted (by simpa using hgained)
        rw [exec, if_neg hfinalized, if_neg (by simp [hdetached]), if_neg hgained]
        refine ⟨ho, ⟨rfl, rfl⟩, ?_, nofun⟩
        rintro _ ⟨⟩
        exact ⟨fun _ => ⟨hholds, hdetached, haccessor⟩, fun h => absurd h hgained⟩
  | autoreleaseInvocation next =>
    cases next with
    | exit =>
      obtain ⟨huses, hdetached⟩ := h
      rw [exec]
      by_cases hfunction : o.isObjectFunctionArgument = true
      · rw [if_pos hfunction, giveUpInvocation_of_function ho hfunction]
        refine ⟨ho, ⟨rfl, rfl⟩, ?_, nofun⟩
        rintro _ ⟨⟩
        exact ⟨huses, hdetached, hfunction⟩
      · rw [if_neg hfunction]
        have hgivesUp := giveUpInvocation_givesUp ho (by simpa using hfunction) .autorelease
          (some (Finalizer.exit.next : Statement Thread))
        refine ⟨hgivesUp.slot, hgivesUp.effect (.inl rfl), ?_, nofun⟩
        rintro _ ⟨⟩
        exact ⟨huses.gained, huses.finalized, huses.joinable,
          fun _ => ⟨hgivesUp.notHeld, huses.accessor⟩,
          fun h => absurd (hdetached.symm.trans h) (by simp)⟩
    | dealloc => exact h.elim
  | autoreleaseFunctionArgument next =>
    cases next with
    | exit =>
      obtain ⟨huses, hdetached, hfunction⟩ := h
      have hgivesUp := giveUpFunctionArgument_givesUp ho hfunction .autorelease
        (some (Finalizer.exit.next : Statement Thread))
      refine ⟨hgivesUp.slot, hgivesUp.effect (.inl rfl), ?_, nofun⟩
      rintro _ ⟨⟩
      exact ⟨huses.gained, huses.finalized, huses.joinable,
        fun _ => ⟨hgivesUp.notHeld, huses.accessor⟩,
        fun h => absurd (hdetached.symm.trans h) (by simp)⟩
    | dealloc => exact h.elim
  | relinquishInFinalize next =>
    cases next with
    | exit =>
      obtain ⟨huses, hdetached⟩ := h
      rw [exec, relinquish_of_holds ho huses.holds]
      refine ⟨ho, ⟨huses.holds, by simp [huses.accessor], huses.holds, rfl⟩, ?_, nofun⟩
      rintro _ ⟨⟩
      exact ⟨huses.gained, huses.finalized, huses.joinable, by simp [hdetached],
        fun _ => ⟨huses.holds, rfl⟩⟩
    | dealloc => exact h.elim
  | releaseThreadObject =>
    have hhanded : o.HandedOn t := h
    refine ⟨ho, ⟨rfl, rfl⟩, ?_, fun _ => ?_⟩
    · intro next hnext
      simp only [exec] at hnext
      split at hnext
      · obtain rfl : _ = next := by simpa using hnext
        exact hhanded.last.withCounts _ _
      · simp at hnext
    · exact ⟨hhanded.1, hhanded.2, hhanded.3, hhanded.4, hhanded.5⟩
  | join =>
    have hhanded := hjoin rfl
    obtain ⟨hdetached, -⟩ := h
    obtain ⟨hholds, haccessor⟩ := hhanded.undetached hdetached
    refine ⟨ho, ⟨rfl, rfl⟩, ?_, nofun⟩
    rintro _ ⟨⟩
    exact ⟨hdetached, hholds, haccessor, hhanded.gained, hhanded.finalized, rfl⟩
  | gainInJoin =>
    obtain ⟨hdetached, hbetween⟩ := h
    rw [exec, if_pos hbetween.gained, gain_of_holds ho hbetween.holds]
    refine ⟨ho, ⟨hbetween.holds, hbetween.accessor, hbetween.holds, rfl⟩, ?_, nofun⟩
    rintro _ ⟨⟩
    exact ⟨hdetached, hbetween.holds, rfl, hbetween.gained, hbetween.finalized, hbetween.joinable⟩
  | autoreleaseInJoin =>
    obtain ⟨hdetached, huses⟩ := h
    have haccessor : o.accessor.isSome = true := by simp [huses.accessor]
    rw [exec]
    split_ifs with hfunction
    · have hgivesUp := giveUpFunctionArgument_givesUp ho hfunction .autorelease none
      exact ⟨hgivesUp.slot, hgivesUp.effect (.inl rfl), nofun,
        fun _ => ⟨huses.joinable, huses.gained, huses.finalized, hgivesUp.notHeld, haccessor⟩⟩
    · have hgivesUp := giveUpInvocation_givesUp ho (by simpa using hfunction) .autorelease none
      exact ⟨hgivesUp.slot, hgivesUp.effect (.inl rfl), nofun,
        fun _ => ⟨huses.joinable, huses.gained, huses.finalized, hgivesUp.notHeld, haccessor⟩⟩
  | gainInDealloc =>
    have hlast : o.Last creator := h
    by_cases hgained : o.threadDidGainAccess = true
    · rw [exec, if_pos hgained]
      obtain ⟨-, ⟨hholds, haccessor⟩ | ⟨hholds, haccessor⟩⟩ := hlast.started hgained
      · rw [gain_of_holds ho hholds]
        exact ⟨ho, ⟨hholds, haccessor, hholds, rfl⟩,
          by rintro _ ⟨⟩; exact ⟨rfl, fun _ _ => rfl⟩, nofun⟩
      · rw [gain_of_not_holds ho hholds]
        refine ⟨ho, ⟨rfl, rfl⟩, ?_, nofun⟩
        rintro _ ⟨⟩
        exact ⟨haccessor, fun _ h => by simp [hholds] at h⟩
    · rw [exec, if_neg hgained]
      obtain ⟨-, -, haccessor⟩ := hlast.unstarted (by simpa using hgained)
      refine ⟨ho, ⟨rfl, rfl⟩, ?_, nofun⟩
      rintro _ ⟨⟩
      exact ⟨by simp [haccessor], fun h => absurd h hgained⟩
  | releaseInvocation =>
    have hleft : o.Leftover t := h
    rw [exec]
    by_cases hfunction : o.isObjectFunctionArgument = true
    · rw [if_pos hfunction, giveUpInvocation_of_function ho hfunction]
      refine ⟨ho, ⟨rfl, rfl⟩, ?_, nofun⟩
      rintro _ ⟨⟩
      exact ⟨hleft, hfunction⟩
    · rw [if_neg hfunction]
      have hgivesUp := giveUpInvocation_givesUp ho (by simpa using hfunction) .release none
      exact ⟨hgivesUp.slot, hgivesUp.effect (.inr rfl), nofun,
        fun _ => ⟨hgivesUp.notHeld, hleft.accessor⟩⟩
  | releaseFunctionArgument =>
    obtain ⟨hleft, hfunction⟩ := h
    have hgivesUp := giveUpFunctionArgument_givesUp ho hfunction .release none
    exact ⟨hgivesUp.slot, hgivesUp.effect (.inr rfl), nofun,
      fun _ => ⟨hgivesUp.notHeld, hleft.accessor⟩⟩

theorem Expects.withCounts {statement : Statement Thread} (h : o.Expects creator t statement)
    (users retainCount : ℕ) :
    Expects creator t { o with users := users, retainCount := retainCount } statement := by
  cases statement with
  | _ => simpa [Expects, unused_iff, uses_iff, between_iff, finished_iff, handedOn_iff, last_iff,
      leftover_iff, holds] using h

theorem unused_of_start {statement : Statement Thread} (hrole : statement.role = .start)
    (hcreate : ∀ u, statement ≠ .createThread u) (h : o.Expects creator t statement) :
    o.Unused creator := by
  cases statement with
  | setDetached u | retain u | relinquish u => exact h
  | createThread u => exact absurd rfl (hcreate u)
  | performFinalize finalizer | autoreleaseInvocation finalizer
  | autoreleaseFunctionArgument finalizer | relinquishInFinalize finalizer =>
    cases finalizer <;> simp [Statement.role] at hrole
  | _ => cases hrole

theorem eq_join_of_isJoinable {statement : Statement Thread} (hrole : statement.role = .join)
    (hjoinable : o.isJoinable = true) (h : o.Expects creator t statement) : statement = .join := by
  cases statement with
  | join => rfl
  | gainInJoin | autoreleaseInJoin => exact absurd (h.2.joinable.symm.trans hjoinable) (by simp)
  | performFinalize finalizer | autoreleaseInvocation finalizer
  | autoreleaseFunctionArgument finalizer | relinquishInFinalize finalizer =>
    cases finalizer <;> simp [Statement.role] at hrole
  | _ => cases hrole

theorem accessor_of_usesArgument {statement : Statement Thread}
    (huses : statement.usesArgument = true) (h : o.Expects creator t statement) :
    o.accessor = some t := by
  cases statement with
  | setThreadDidGainAccess | main => exact h.accessor
  | performFinalize finalizer =>
    cases finalizer with
    | exit => exact ThreadObject.Uses.accessor h
    | dealloc => cases huses
  | autoreleaseInvocation finalizer | autoreleaseFunctionArgument finalizer
  | relinquishInFinalize finalizer =>
    cases finalizer with
    | exit => exact h.1.accessor
    | dealloc => cases huses
  | _ => cases huses

theorem HandedOn.withCounts (h : o.HandedOn t) (users retainCount : ℕ) :
    HandedOn t { o with users := users, retainCount := retainCount } :=
  ⟨h.gained, h.finalized, h.joinable, h.detached, h.undetached⟩

theorem role_of_mem_next {statement next : Statement Thread}
    (h : next ∈ (o.exec t statement).next) :
    next.role = statement.role ∧ next ≠ .join ∨
      statement = .releaseThreadObject ∧ o.retainCount = 1 ∧ next = .performFinalize .dealloc := by
  cases statement with
  | performFinalize finalizer | autoreleaseInvocation finalizer
  | autoreleaseFunctionArgument finalizer | relinquishInFinalize finalizer =>
    cases finalizer with
    | _ =>
      grind [exec, relinquish, giveUpInvocation, giveUpFunctionArgument, Statement.role,
        Finalizer.next]
  | _ => grind [exec, relinquish, gain, giveUpInvocation, giveUpFunctionArgument, Statement.role]

theorem call_of_start {statement : Statement Thread} (hrole : statement.role = .start) :
    (o.exec t statement).call = none ∨ (o.exec t statement).call = some .relinquish := by
  cases statement with
  | performFinalize finalizer | autoreleaseInvocation finalizer
  | autoreleaseFunctionArgument finalizer | relinquishInFinalize finalizer =>
    cases finalizer <;> simp [Statement.role] at hrole
  | relinquish u =>
    simp only [exec, relinquish]
    split_ifs
    · exact .inr rfl
    · exact .inl rfl
  | setDetached u | retain u | createThread u => exact .inl rfl
  | _ => simp [Statement.role] at hrole

theorem of_call_relinquish {statement : Statement Thread}
    (h : (o.exec t statement).call = some .relinquish) :
    statement.role = .start ∨ ∃ next, statement = .relinquishInFinalize next := by
  cases statement with
  | relinquish u => exact .inl rfl
  | relinquishInFinalize next => exact .inr ⟨next, rfl⟩
  | _ => grind [exec, gain, giveUpInvocation, giveUpFunctionArgument]

theorem eq_createThread_of_next {statement : Statement Thread} (hrole : statement.role = .start)
    (h : (o.exec t statement).next = none) : ∃ u, statement = .createThread u := by
  cases statement with
  | createThread u => exact ⟨u, rfl⟩
  | setDetached u | retain u => simp [exec] at h
  | relinquish u =>
    simp only [exec, relinquish] at h
    split at h <;> simp at h
  | performFinalize next | autoreleaseInvocation next | autoreleaseFunctionArgument next
  | relinquishInFinalize next => cases next <;> simp [Statement.role] at hrole
  | _ => simp [Statement.role] at hrole

theorem eq_releaseThreadObject_of_next {statement : Statement Thread}
    (hrole : statement.role = .thread) (h : (o.exec t statement).next = none) :
    statement = .releaseThreadObject := by
  cases statement with
  | releaseThreadObject => rfl
  | performFinalize finalizer | autoreleaseInvocation finalizer
  | autoreleaseFunctionArgument finalizer | relinquishInFinalize finalizer =>
    cases finalizer with
    | _ =>
      grind [exec, relinquish, giveUpInvocation, giveUpFunctionArgument, Statement.role,
        Finalizer.next]
  | _ => grind [exec, relinquish, gain, giveUpInvocation, giveUpFunctionArgument, Statement.role]

@[simp]
theorem exec_users (t : Thread) (o : ThreadObject Thread) (statement : Statement Thread) :
    (o.exec t statement).object.users = o.users := by
  cases statement <;>
    simp only [exec, relinquish, gain, giveUpInvocation, giveUpFunctionArgument] <;>
    split_ifs <;> rfl

theorem exec_isJoinable {statement : Statement Thread} (hrole : statement.role = .thread) :
    (o.exec t statement).object.isJoinable = o.isJoinable := by
  cases statement with
  | performFinalize finalizer | autoreleaseInvocation finalizer
  | autoreleaseFunctionArgument finalizer | relinquishInFinalize finalizer =>
    cases finalizer with
    | _ =>
      grind [exec, relinquish, giveUpInvocation, giveUpFunctionArgument, Statement.role,
        Finalizer.next]
  | _ => grind [exec, relinquish, gain, giveUpInvocation, giveUpFunctionArgument, Statement.role]

theorem exec_isDetached {statement : Statement Thread} (hrole : statement.role = .thread) :
    (o.exec t statement).object.isDetached = o.isDetached := by
  cases statement with
  | performFinalize finalizer | autoreleaseInvocation finalizer
  | autoreleaseFunctionArgument finalizer | relinquishInFinalize finalizer =>
    cases finalizer with
    | _ =>
      grind [exec, relinquish, giveUpInvocation, giveUpFunctionArgument, Statement.role,
        Finalizer.next]
  | _ => grind [exec, relinquish, gain, giveUpInvocation, giveUpFunctionArgument, Statement.role]

theorem exec_references (t : Thread) {statement : Statement Thread}
    (hcount : statement.references ≤ o.retainCount) (hthread : ∀ u, statement ≠ .createThread u) :
    (o.exec t statement).object.retainCount + statement.references =
      o.retainCount + (o.exec t statement).next.elim 0 Statement.references := by
  cases statement with
  | performFinalize finalizer | autoreleaseInvocation finalizer
  | autoreleaseFunctionArgument finalizer | relinquishInFinalize finalizer =>
    cases finalizer with
    | _ =>
      grind [exec, relinquish, giveUpInvocation, giveUpFunctionArgument, Statement.role,
        Statement.references, Finalizer.next]
  | _ =>
    grind [exec, relinquish, gain, giveUpInvocation, giveUpFunctionArgument, Statement.role,
      Statement.references]

end ThreadObject

end MulleObjC.NSThread
