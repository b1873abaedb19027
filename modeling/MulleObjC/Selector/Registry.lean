import Mathlib.Data.List.Basic
import Mathlib.Logic.Function.Basic
import MulleObjC.Library.Machine

/-!
# Selectors made at run time

`MulleObjCCreateSelectorUTF8String` hashes a name to the id that is the selector. If no
method has that id yet, it registers a descriptor with a guessed signature, so that
`MulleObjCSelectorGetNameUTF8String` finds the name later. Threads do this at the same time,
while code is loaded that brings descriptors of its own. Different names may have one id. The
table of the descriptors belongs to the runtime.
-/

namespace MulleObjC.Selector

open Machine

/-- `struct _mulle_objc_descriptor` -/
structure Descriptor (Sel : Type*) where
  methodid : Sel
  /-- `_mulle_objc_method_guessed_signature` -/
  guessed : Bool
  name : List Char
  signature : List Char
  deriving DecidableEq

/-- `fake_signatures` -/
def fakeSignatures : List (List Char) :=
  [['@', '@', ':'],
    ['@', '@', ':', '@'],
    ['@', '@', ':', '@', '@'],
    ['@', '@', ':', '@', '@', '@'],
    ['@', '@', ':', '@', '@', '@', '@'],
    ['@', '@', ':', '@', '@', '@', '@', '@'],
    ['@', '@', ':', '@', '@', '@', '@', '@', '@'],
    ['@', '@', ':', '@', '@', '@', '@', '@', '@', '@'],
    ['@', '@', ':', '@', '@', '@', '@', '@', '@', '@', '@'],
    ['@', '@', ':', '@', '@', '@', '@', '@', '@', '@', '@', '@'],
    ['@', '@', ':', '@', '@', '@', '@', '@', '@', '@', '@', '@', '@'],
    ['@', '@', ':', '@', '@', '@', '@', '@', '@', '@', '@', '@', '@', '@'],
    ['@', '@', ':', '@', '@', '@', '@', '@', '@', '@', '@', '@', '@', '@', '@'],
    ['@', '@', ':', '@', '@', '@', '@', '@', '@', '@', '@', '@', '@', '@', '@', '@'],
    ['@', '@', ':', '@', '@', '@', '@', '@', '@', '@', '@', '@', '@', '@', '@', '@', '@'],
    ['@', '@', ':', '@', '@', '@', '@', '@', '@', '@', '@', '@', '@', '@', '@', '@', '@', '@']]

/-- `count_params` -/
def countParams : List Char → ℕ
  | [] => 0
  | c :: name => countParams name + if c = ':' then 1 else 0

/-- The signature for a name with `n` parameters. It is computed where the table ends. -/
def guessSignature (n : ℕ) : List Char :=
  match fakeSignatures[n]? with
  | some signature => signature
  | none => (List.replicate (n + 3) '@').set 2 ':'

/-- The table has what is computed: an object is returned, and every parameter is one. -/
theorem guessSignature_eq (n : ℕ) :
    guessSignature n = ['@', '@', ':'] ++ List.replicate n '@' := by
  have htable : ∀ i < 16, guessSignature i = ['@', '@', ':'] ++ List.replicate i '@' := by decide
  by_cases hn : n < 16
  · exact htable n hn
  · have hnone : fakeSignatures[n]? = none :=
      List.getElem?_eq_none (by change 16 ≤ n; omega)
    rw [guessSignature, hnone]
    rfl

/-- The table of a universe with its functions, and the hash. -/
structure Runtime (Table Sel : Type*) where
  /-- `mulle_objc_uniqueid_from_string` -/
  uniqueid : List Char → Sel
  /-- `_mulle_objc_universe_lookup_descriptor` -/
  lookup : Table → Sel → Option (Descriptor Sel)
  /-- `mulle_objc_universe_register_descriptor_nofail`, unless the universe fails. -/
  register : Table → Descriptor Sel → Option Table

/-- What is known of the table: a descriptor that is found stays where it is. -/
structure Runtime.Registers {Table Sel : Type*} (rt : Runtime Table Sel) : Prop where
  kept : ∀ {table desc table' sel other}, rt.register table desc = some table' →
    rt.lookup table sel = some other → rt.lookup table' sel = some other
  known : ∀ {table desc table'}, rt.register table desc = some table' →
    (rt.lookup table' desc.methodid).isSome = true
  gained : ∀ {table desc table' sel other}, rt.register table desc = some table' →
    rt.lookup table' sel = some other →
      rt.lookup table sel = some other ∨ sel = desc.methodid ∧ other = desc

/-- Where a thread is in `MulleObjCCreateSelectorUTF8String`. -/
inductive Position (Sel : Type*)
  | outside
  /-- `_mulle_objc_universe_lookup_descriptor` -/
  | lookup (name : List Char)
  /-- `mulle_objc_universe_register_descriptor_nofail` -/
  | register (desc : Descriptor Sel)
  deriving DecidableEq

/-- What the threads do. -/
inductive Act (Thread Sel : Type*)
  | createSelector (t : Thread) (name : Option (List Char))
  | proceed (t : Thread)
  /-- `MulleObjCSelectorGetNameUTF8String` -/
  | getName (t : Thread) (sel : Sel)
  /-- A method is loaded with its descriptor. -/
  | load (desc : Descriptor Sel)
  /-- A name is loaded that no method has. -/
  | loadHashstring (name : List Char)

/-- What can be seen. -/
inductive Event (Thread Sel : Type*)
  /-- `MULLE_OBJC_NO_METHODID` -/
  | noMethodid (t : Thread)
  | created (t : Thread) (name : List Char) (sel : Sel)
  | name (t : Thread) (sel : Sel) (name : Option (List Char))
  deriving DecidableEq

/-- The universe, and where the threads are. -/
structure State (Table Thread Sel : Type*) where
  table : Table
  /-- `_mulle_objc_universe_search_hashstring` -/
  hashstrings : Sel → Option (List Char)
  position : Thread → Position Sel

variable {Table Thread Sel : Type*} [DecidableEq Thread] [DecidableEq Sel]
  (rt : Runtime Table Sel)

namespace State

/-- No thread has begun. -/
def init (table : Table) (hashstrings : Sel → Option (List Char)) : State Table Thread Sel :=
  ⟨table, hashstrings, fun _ => .outside⟩

/-- The descriptor that is made for a name. -/
def guess (name : List Char) : Descriptor Sel :=
  ⟨rt.uniqueid name, true, name, guessSignature (countParams name)⟩

/-- `MulleObjCSelectorGetNameUTF8String` -/
def getName (s : State Table Thread Sel) (sel : Sel) : Option (List Char) :=
  match rt.lookup s.table sel with
  | some desc => some desc.name
  | none => s.hashstrings sel

/-- A thread goes on. -/
def goto (s : State Table Thread Sel) (t : Thread) (p : Position Sel) : State Table Thread Sel :=
  { s with position := Function.update s.position t p }

/-- `MulleObjCCreateSelectorUTF8String` is called. -/
def createSelector (s : State Table Thread Sel) (t : Thread) (name : Option (List Char)) :
    Option (List (Event Thread Sel) × State Table Thread Sel) :=
  match s.position t with
  | .outside =>
    match name with
    | none => some ([.noMethodid t], s)
    | some name => some ([], s.goto t (.lookup name))
  | _ => none

/-- `MulleObjCCreateSelectorUTF8String` goes on. -/
def proceed (s : State Table Thread Sel) (t : Thread) :
    Option (List (Event Thread Sel) × State Table Thread Sel) :=
  match s.position t with
  | .outside => none
  | .lookup name =>
    if (rt.lookup s.table (rt.uniqueid name)).isSome then
      some ([.created t name (rt.uniqueid name)], s.goto t .outside)
    else some ([], s.goto t (.register (guess rt name)))
  | .register desc =>
    (rt.register s.table desc).map fun table =>
      ([.created t desc.name desc.methodid], { s with table }.goto t .outside)

/-- A step. The compiler computes the id of a method from its name, too. -/
def step (s : State Table Thread Sel) :
    Act Thread Sel → Option (List (Event Thread Sel) × State Table Thread Sel)
  | .createSelector t name => s.createSelector t name
  | .proceed t => s.proceed rt t
  | .getName t sel => some ([.name t sel (s.getName rt sel)], s)
  | .load desc =>
    if rt.uniqueid desc.name = desc.methodid ∧ desc.guessed = false then
      (rt.register s.table desc).map fun table => ([], { s with table })
    else none
  | .loadHashstring name =>
    some ([], { s with
      hashstrings := Function.update s.hashstrings (rt.uniqueid name) (some name) })

end State

/-- A descriptor belongs to its id. If it is guessed, it has one object for every colon. -/
structure Descriptor.Sound (desc : Descriptor Sel) (sel : Sel) : Prop where
  methodid : desc.methodid = sel
  name : rt.uniqueid desc.name = sel
  signature : desc.guessed = true →
    desc.signature = ['@', '@', ':'] ++ List.replicate (countParams desc.name) '@'

/-- All descriptors that are found belong to their ids. -/
def SoundTable (table : Table) : Prop :=
  ∀ sel desc, rt.lookup table sel = some desc → desc.Sound rt sel

/-- What every step keeps. -/
structure State.Sound (s : State Table Thread Sel) : Prop where
  table : SoundTable rt s.table
  position : ∀ {t desc}, s.position t = .register desc → ∃ name, desc = guess rt name

variable {rt} {s s' s₁ s₂ : State Table Thread Sel} {a : Act Thread Sel}
  {es es₁ es₂ : List (Event Thread Sel)} {t u : Thread} {name : List Char} {sel : Sel}
  {desc : Descriptor Sel} {table table' : Table} {hashstrings : Sel → Option (List Char)}

omit [DecidableEq Sel] in
theorem Runtime.Registers.soundTable (hrt : rt.Registers) (htable : SoundTable rt table)
    (hdesc : desc.Sound rt desc.methodid) (h : rt.register table desc = some table') :
    SoundTable rt table' := by
  intro sel other hother
  rcases hrt.gained h hother with hbefore | ⟨rfl, rfl⟩
  · exact htable sel other hbefore
  · exact hdesc

omit [DecidableEq Sel] in
theorem State.Sound.goto {p : Position Sel} (hs : s.Sound rt)
    (hp : ∀ desc, p = .register desc → ∃ name, desc = guess rt name) :
    (s.goto t p).Sound rt := by
  refine ⟨hs.table, fun {u desc} hposition => ?_⟩
  unfold State.goto at hposition
  by_cases hu : u = t
  · rw [hu] at hposition
    simp only [Function.update_self] at hposition
    exact hp desc hposition
  · simp only [Function.update_of_ne hu] at hposition
    exact hs.position hposition

omit [DecidableEq Sel] in
theorem guess_sound : (State.guess rt name).Sound rt (rt.uniqueid name) :=
  ⟨rfl, rfl, fun _ => guessSignature_eq _⟩

variable (rt) in
/-- What is found stays. -/
def Keeps (s s' : State Table Thread Sel) : Prop :=
  ∀ sel desc, rt.lookup s.table sel = some desc → rt.lookup s'.table sel = some desc

variable (rt) in
/-- What a step shows, and what becomes of the universe. -/
structure Shows (s s' : State Table Thread Sel) (es : List (Event Thread Sel)) : Prop where
  sound : s'.Sound rt
  keeps : Keeps rt s s'
  named : ∀ {t sel r}, .name t sel r ∈ es → r = s.getName rt sel
  created : ∀ {t name sel}, .created t name sel ∈ es →
    sel = rt.uniqueid name ∧ (rt.lookup s'.table sel).isSome = true

/-- A step of any thread keeps what is known, and shows it. -/
theorem step_shows (hrt : rt.Registers) (hs : s.Sound rt)
    (hstep : s.step rt a = some (es, s')) : Shows rt s s' es := by
  cases a with
  | createSelector t name =>
    change s.createSelector t name = some (es, s') at hstep
    unfold State.createSelector at hstep
    split at hstep
    · cases name with
      | none =>
        obtain ⟨rfl, rfl⟩ := Prod.mk.inj (Option.some.inj hstep)
        exact ⟨hs, fun _ _ h => h, by simp, by simp⟩
      | some name =>
        obtain ⟨rfl, rfl⟩ := Prod.mk.inj (Option.some.inj hstep)
        exact ⟨hs.goto (by simp), fun _ _ h => h, by simp, by simp⟩
    · cases hstep
  | proceed t =>
    rw [State.step, State.proceed] at hstep
    split at hstep
    · cases hstep
    · next name hposition =>
      split at hstep
      · next hsome =>
        obtain ⟨rfl, rfl⟩ := Prod.mk.inj (Option.some.inj hstep)
        refine ⟨hs.goto (by simp), fun _ _ h => h, by simp, ?_⟩
        intro u other sel hmem
        obtain ⟨-, rfl, rfl⟩ := Event.created.inj (List.mem_singleton.mp hmem)
        exact ⟨rfl, hsome⟩
      · obtain ⟨rfl, rfl⟩ := Prod.mk.inj (Option.some.inj hstep)
        refine ⟨hs.goto fun desc hdesc => ?_, fun _ _ h => h, by simp, by simp⟩
        exact ⟨name, (Position.register.inj hdesc).symm⟩
    · next desc hposition =>
      obtain ⟨table, htable, hr⟩ := Option.map_eq_some_iff.mp hstep
      obtain ⟨rfl, rfl⟩ := Prod.mk.inj hr
      obtain ⟨name, rfl⟩ := hs.position hposition
      have hsound : ({ s with table } : State Table Thread Sel).Sound rt :=
        ⟨hrt.soundTable hs.table guess_sound htable, hs.position⟩
      refine ⟨hsound.goto (by simp), fun _ _ h => hrt.kept htable h, by simp, ?_⟩
      intro u other sel hmem
      obtain ⟨-, rfl, rfl⟩ := Event.created.inj (List.mem_singleton.mp hmem)
      exact ⟨rfl, hrt.known htable⟩
  | getName t sel =>
    obtain ⟨rfl, rfl⟩ := Prod.mk.inj (Option.some.inj hstep)
    refine ⟨hs, fun _ _ h => h, ?_, by simp⟩
    intro u sel' r hmem
    obtain ⟨-, rfl, rfl⟩ := Event.name.inj (List.mem_singleton.mp hmem)
    rfl
  | load desc =>
    obtain ⟨⟨hname, hguessed⟩, hstep⟩ := Option.ite_none_right_eq_some.mp hstep
    obtain ⟨table, htable, hr⟩ := Option.map_eq_some_iff.mp hstep
    obtain ⟨rfl, rfl⟩ := Prod.mk.inj hr
    have hdesc : desc.Sound rt desc.methodid :=
      ⟨rfl, hname, fun h => absurd (hguessed.symm.trans h) Bool.false_ne_true⟩
    exact ⟨⟨hrt.soundTable hs.table hdesc htable, hs.position⟩, fun _ _ h => hrt.kept htable h,
      by simp, by simp⟩
  | loadHashstring name =>
    obtain ⟨rfl, rfl⟩ := Prod.mk.inj (Option.some.inj hstep)
    exact ⟨⟨hs.table, hs.position⟩, fun _ _ h => h, by simp, by simp⟩

variable (rt) in
/-- As `step_shows`, for a whole run. Names are those of the table, as soon as it has one. -/
structure RunShows (s s' : State Table Thread Sel) (es : List (Event Thread Sel)) : Prop where
  sound : s'.Sound rt
  keeps : Keeps rt s s'
  named : ∀ {t sel r desc}, .name t sel r ∈ es → rt.lookup s.table sel = some desc →
    r = some desc.name
  created : ∀ {t name sel}, .created t name sel ∈ es →
    sel = rt.uniqueid name ∧ (rt.lookup s'.table sel).isSome = true

theorem run_shows (hrt : rt.Registers) (hs : s.Sound rt) (hrun : Run (State.step rt) s es s') :
    RunShows rt s s' es := by
  refine hrun.invariant_trace (fun es s' => RunShows rt s s' es) (fun _ h hstep => ?_)
    ⟨hs, fun _ _ h => h, by simp, by simp⟩
  have hshows := step_shows hrt h.sound hstep
  refine ⟨hshows.sound, fun sel desc hdesc => hshows.keeps sel desc (h.keeps sel desc hdesc),
    ?_, ?_⟩
  · intro t sel r desc hmem hdesc
    rcases List.mem_append.mp hmem with hmem | hmem
    · exact h.named hmem hdesc
    · rw [hshows.named hmem, State.getName, h.keeps sel desc hdesc]
  · intro t name sel hmem
    rcases List.mem_append.mp hmem with hmem | hmem
    · obtain ⟨hsel, hsome⟩ := h.created hmem
      obtain ⟨desc, hdesc⟩ := Option.isSome_iff_exists.mp hsome
      exact ⟨hsel, Option.isSome_iff_exists.mpr ⟨desc, hshows.keeps sel desc hdesc⟩⟩
    · exact hshows.created hmem

omit [DecidableEq Thread] [DecidableEq Sel] in
theorem sound_init (htable : SoundTable rt table) :
    (State.init table hashstrings : State Table Thread Sel).Sound rt :=
  ⟨htable, by simp [State.init]⟩

variable (rt) in
/-- A selector that a thread has got leads to one and the same descriptor everywhere. -/
structure Agreed (name : List Char) (sel : Sel) (s : State Table Thread Sel)
    (es : List (Event Thread Sel)) (desc : Descriptor Sel) : Prop where
  found : rt.lookup s.table sel = some desc
  sound : desc.Sound rt sel
  named : ∀ t r, .name t sel r ∈ es → r = some desc.name
  /-- Only another name with the same id can have been first. -/
  name_eq : (∀ other, rt.uniqueid other = rt.uniqueid name → other = name) → desc.name = name

/-- Behind the call that has returned a selector for a name, in whatever order the steps of all
threads come, there is one descriptor that is found for the selector from then on. Every thread
gets its name. -/
theorem agreed_of_runs (hrt : rt.Registers) (htable : SoundTable rt table)
    (h₁ : Run (State.step rt) (State.init table hashstrings) es₁ s₁)
    (hcreated : .created t name sel ∈ es₁) :
    sel = rt.uniqueid name ∧ ∃ desc, ∀ es₂ s₂, Run (State.step rt) s₁ es₂ s₂ →
      Agreed rt name sel s₂ es₂ desc := by
  have hshows₁ := run_shows hrt (sound_init htable) h₁
  obtain ⟨rfl, hsome⟩ := hshows₁.created hcreated
  obtain ⟨desc, hdesc⟩ := Option.isSome_iff_exists.mp hsome
  have hsound := hshows₁.sound.table _ desc hdesc
  refine ⟨rfl, desc, fun es₂ s₂ h₂ => ?_⟩
  have hshows₂ := run_shows hrt hshows₁.sound h₂
  exact ⟨hshows₂.keeps _ desc hdesc, hsound, fun u r hmem => hshows₂.named hmem hdesc,
    fun hinjective => hinjective _ hsound.name⟩

/-- A table that is a list, and a name that is its own id. The universe fails if an id has two
names. -/
def listed : Runtime (List (Descriptor (List Char))) (List Char) where
  uniqueid name := name
  lookup table sel := table.find? (·.methodid = sel)
  register table desc :=
    match table.find? (·.methodid = desc.methodid) with
    | some other => if other.name = desc.name then some table else none
    | none => some (desc :: table)

theorem listed_register_cases {table table' : List (Descriptor (List Char))}
    {desc : Descriptor (List Char)} (h : listed.register table desc = some table') :
    (table' = table ∧ (listed.lookup table desc.methodid).isSome = true) ∨
      (table' = desc :: table ∧ listed.lookup table desc.methodid = none) := by
  change (match table.find? (·.methodid = desc.methodid) with
    | some other => if other.name = desc.name then some table else none
    | none => some (desc :: table)) = some table' at h
  change (table' = table ∧ (table.find? (·.methodid = desc.methodid)).isSome = true) ∨
    (table' = desc :: table ∧ table.find? (·.methodid = desc.methodid) = none)
  split at h
  next other hfound =>
    obtain ⟨-, htable⟩ := Option.ite_none_right_eq_some.mp h
    exact .inl ⟨(Option.some.inj htable).symm, by rw [hfound]; rfl⟩
  next hnone => exact .inr ⟨(Option.some.inj h).symm, hnone⟩

theorem listed_registers : listed.Registers where
  kept := by
    intro table desc table' sel other h hother
    rcases listed_register_cases h with ⟨rfl, -⟩ | ⟨rfl, hnone⟩
    · exact hother
    · have hne : desc.methodid ≠ sel := by
        rintro rfl
        cases hnone.symm.trans hother
      exact (List.find?_cons_of_neg (by simpa using hne)).trans hother
  known := by
    intro table desc table' h
    rcases listed_register_cases h with ⟨rfl, hsome⟩ | ⟨rfl, -⟩
    · exact hsome
    · simp [listed]
  gained := by
    intro table desc table' sel other h hother
    rcases listed_register_cases h with ⟨rfl, -⟩ | ⟨rfl, -⟩
    · exact .inl hother
    · by_cases heq : desc.methodid = sel
      · change (desc :: table).find? (·.methodid = sel) = some other at hother
        rw [List.find?_cons_of_pos (by simpa using heq)] at hother
        exact .inr ⟨heq.symm, (Option.some.inj hother).symm⟩
      · change (desc :: table).find? (·.methodid = sel) = some other at hother
        rw [List.find?_cons_of_neg (by simpa using heq)] at hother
        exact .inl hother

/-- Two threads race for `a:b:`, and a third one asks afterwards. -/
theorem agreed_of_runs_race :
    ∃ (s₁ s₂ : State (List (Descriptor (List Char))) ℕ (List Char)) (desc : Descriptor (List Char)),
    Run (State.step listed) (State.init [] fun _ => none)
      [.created 1 ['a', ':', 'b', ':'] ['a', ':', 'b', ':'],
        .created 0 ['a', ':', 'b', ':'] ['a', ':', 'b', ':']] s₁ ∧
    Run (State.step listed) s₁
      [.name 2 ['a', ':', 'b', ':'] (some ['a', ':', 'b', ':'])] s₂ ∧
    Agreed listed ['a', ':', 'b', ':'] ['a', ':', 'b', ':'] s₂
      [.name 2 ['a', ':', 'b', ':'] (some ['a', ':', 'b', ':'])] desc := by
  have h : ∃ s₁ s₂ : State (List (Descriptor (List Char))) ℕ (List Char),
      exec (State.step listed) (State.init [] fun _ => none)
        [.createSelector 0 (some ['a', ':', 'b', ':']),
          .createSelector 1 (some ['a', ':', 'b', ':']), .proceed 0, .proceed 1, .proceed 1,
          .proceed 0] =
        some ([.created 1 ['a', ':', 'b', ':'] ['a', ':', 'b', ':'],
          .created 0 ['a', ':', 'b', ':'] ['a', ':', 'b', ':']], s₁) ∧
      exec (State.step listed) s₁ [.getName 2 ['a', ':', 'b', ':']] =
        some ([.name 2 ['a', ':', 'b', ':'] (some ['a', ':', 'b', ':'])], s₂) :=
    ⟨_, _, rfl, rfl⟩
  obtain ⟨s₁, s₂, hexec₁, hexec₂⟩ := h
  have hrun₁ := run_of_exec _ _ _ hexec₁
  have hrun₂ := run_of_exec _ _ _ hexec₂
  have hempty : SoundTable listed [] := by
    intro sel desc h
    cases h
  have hcreated : (Event.created 0 ['a', ':', 'b', ':'] ['a', ':', 'b', ':'] :
      Event ℕ (List Char)) ∈
      [.created 1 ['a', ':', 'b', ':'] ['a', ':', 'b', ':'],
        .created 0 ['a', ':', 'b', ':'] ['a', ':', 'b', ':']] := by decide
  obtain ⟨-, desc, hagreed⟩ := agreed_of_runs listed_registers hempty hrun₁ hcreated
  exact ⟨s₁, s₂, desc, hrun₁, hrun₂, hagreed _ _ hrun₂⟩

end MulleObjC.Selector
