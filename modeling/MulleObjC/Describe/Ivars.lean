import MulleObjC.Describe.Layout

/-!
# Descriptions of instance variables

`MulleObjCDescribeIvars` describes one instance variable after the other. `describe_ivar` finds
out by the address it gets back whether to go on.
-/

namespace MulleObjC.Describe

/-- `struct _mulle_objc_ivar` -/
structure Ivar where
  name : List Char
  signature : List Char
  offset : ℕ

/-- `ivardata`: what of the object is behind the offset. The length is an unsigned difference. -/
def Data.ivardata (data : Data) (ivar : Ivar) : Data :=
  ⟨data.bytes + ivar.offset, (data.length + 2 ^ 64 - ivar.offset) % 2 ^ 64⟩

/-- `"<broken type>"` -/
def brokenType : List Char := "<broken type>".toList

/-- The address that is returned, and the output. -/
def Outcome.address : Outcome → Option (ℕ × List Char)
  | undefined => none
  | null output => some (0, output)
  | done p _ output _ => some (p, output)

/-- The name, in front of what it is. -/
def named (sep : List Char) (ivar : Ivar) : List Char := sep ++ ivar.name ++ [' ', '=', ' ']

section Describe

variable (nextType : List Char → List Char) (printer : Printer) (data : Data)

/-- `describe_ivar`: the output, and whether to go on. -/
def describeIvar (sep : List Char) (ivar : Ivar) : Option (List Char × Bool) :=
  ((describeData nextType printer (data.ivardata ivar) ivar.signature []).bind Outcome.address).map
    fun r =>
      if r.1 = data.bytes then (named sep ivar ++ (r.2 ++ brokenType), false)
      else (named sep ivar ++ r.2, true)

/-- `mulle_pointerarray_for( ivars, ivar)`, over the instance variables in the order of their
names. -/
def describeEach (sep : List Char) : List Ivar → Option (List Char)
  | [] => some []
  | ivar :: ivars =>
    (describeIvar nextType printer data sep ivar).bind fun r =>
      if r.2 then (describeEach [',', '\n', ' ', ' ', ' '] ivars).map (r.1 ++ ·) else some r.1

/-- What is around the descriptions of the instance variables. -/
def enclosed (output : List Char) : List Char :=
  '{' :: (output ++ if output = [] then ['}'] else ['\n', '}'])

/-- `MulleObjCDescribeIvars` -/
def describeIvars (ivars : List Ivar) : Option (List Char) :=
  (describeEach nextType printer data ['\n', ' ', ' ', ' '] ivars).map enclosed

/-- What is to be said about the instance variables: of each what `MulleObjCDescribeMemory` says,
up to the first with a broken type. -/
def reportEach (sep : List Char) : List Ivar → Option (List Char)
  | [] => some []
  | ivar :: ivars =>
    (describeMemory nextType printer (data.ivardata ivar) ivar.signature).bind fun r =>
      if r.1 then (reportEach [',', '\n', ' ', ' ', ' '] ivars).map (named sep ivar ++ r.2 ++ ·)
      else some (named sep ivar ++ r.2)

/-- Undecodable instance variables are reported. -/
def ReportsBroken (ivars : List Ivar) : Prop :=
  ∃ output, describeIvars nextType printer data ivars = some (enclosed output) ∧
    reportEach nextType printer data ['\n', ' ', ' ', ' '] ivars = some output

/-- `MulleObjCDescribeMemory` finds no broken type. -/
def Decodable (ivar : Ivar) : Prop :=
  ∃ output, describeMemory nextType printer (data.ivardata ivar) ivar.signature =
    some (true, output)

/-- The instance variable is where the object begins, and nothing is read there. -/
def EmptyAtStart (ivar : Ivar) : Prop :=
  ivar.offset = 0 ∧ ∃ p rest output,
    describeData nextType printer (data.ivardata ivar) ivar.signature [] =
      some (.done p rest output [])

end Describe

section First

variable {nextType : List Char → List Char} {printer : Printer} {sentinel : ℕ}
  {data : Data} {ivar : Ivar} {ivars : List Ivar} {p : ℕ} {s sep output : List Char}

theorem text_of_planScalar_eq_null {kind : Kind} {rest : List Char} {text : Option (List Char)}
    (h : planScalar printer sentinel kind p rest = .null text) : text = none := by
  rcases planScalar_cases printer sentinel kind p rest with
    hnull | hundefined | ⟨_, _, _, hleaf⟩
  · exact (Plan.null.inj (hnull.symm.trans h)).symm
  · simp [hundefined] at h
  · simp [hleaf] at h

/-- In front of `NULL` at most question marks are printed. -/
theorem text_of_plan_eq_null {text : Option (List Char)}
    (h : plan nextType printer sentinel p s = .null text) :
    text = none ∨ text = some ['?', '?', '?'] := by
  cases s with
  | nil => simp [plan] at h
  | cons c s =>
    rw [plan] at h
    cases hscalar : scalarOfCode c with
    | some scalar =>
      rw [hscalar] at h
      exact .inl (text_of_planScalar_eq_null h)
    | none =>
      rw [hscalar] at h
      dsimp only at h
      split at h
      next => exact .inr (Plan.null.inj h).symm
      next =>
        split at h
        next => simp at h
        next =>
          split at h
          next => exact .inl (text_of_planScalar_eq_null h)
          next =>
            split at h
            next => cases hscan : scan '=' s <;> simp [hscan] at h
            next =>
              split at h
              next => cases hscan : scan '=' s <;> simp [hscan] at h
              next =>
                split at h
                next => split at h <;> simp at h
                next => simp at h

theorem head_behind {o : Option Outcome} {front : List Char}
    (h : o.map (Outcome.behind front []) = some (.null output)) (hfront : front ≠ []) :
    output.head? = front.head? := by
  obtain ⟨o, rfl, ho⟩ := Option.map_eq_some_iff.mp h
  rcases o with _ | out | _
  · simp [Outcome.behind] at ho
  · obtain rfl := Outcome.null.inj ho
    exact List.head?_append_of_ne_nil _ hfront
  · simp [Outcome.behind] at ho

/-- No description that comes to `NULL` begins like the report of a broken type. -/
theorem head_null (h : describeData nextType printer data s [] = some (.null output)) :
    output.head? ≠ some '<' := by
  rw [describeData, describe] at h
  split at h
  next => simp at h
  next text hplan =>
    obtain rfl : separated [] text = output := by simpa using h
    rcases text_of_plan_eq_null hplan with rfl | rfl
    · simp [separated]
    · simp [separated]
  next => simp at h
  next tag members hplan =>
    cases tag with
    | nil =>
      rw [head_behind h (by simp [header])]
      simp [header]
    | cons c tag =>
      rw [head_behind h (by simp [header])]
      simp [header]
  next tag members hplan =>
    cases tag with
    | nil =>
      rw [head_behind h (by simp [header])]
      simp [header]
    | cons c tag =>
      rw [head_behind h (by simp [header])]
      simp [header]
  next =>
    rw [head_behind h (by simp)]
    simp

/-- A description that comes to an address has read what is in front of it. -/
theorem packed_of_describeData {rest : Option (List Char)} {reads : List Read}
    (h : describeData nextType printer data s sep = some (.done p rest output reads)) :
    Packed data.bytes reads p := by
  cases rest with
  | some r => exact (decodes_of_describe h).packed
  | none =>
    obtain rfl := eq_nil_of_describe h
    obtain ⟨rfl, _, _, rfl⟩ := Outcome.done.inj (Option.some.inj h)
    exact rfl

theorem Packed.eq_nil {reads : List Read} (h : Packed p reads p) : reads = [] := by
  cases reads with
  | nil => rfl
  | cons r rs =>
    have hmem := h.mem r List.mem_cons_self
    have hpos := r.kind.size_pos
    have hlast : r.last = r.address + r.kind.size := rfl
    omega

end First

section Walk

variable {nextType : List Char → List Char} {printer : Printer} {data : Data}
  {ivar : Ivar} {ivars : List Ivar} {sep output : List Char}

/-- What `describe_ivar` and `MulleObjCDescribeMemory` make of an instance variable. -/
inductive Described (nextType : List Char → List Char) (printer : Printer) (data : Data)
    (sep : List Char) (ivar : Ivar) : Prop
  /-- Neither comes to an end. -/
  | undefined (hivar : describeIvar nextType printer data sep ivar = none)
      (hmemory : describeMemory nextType printer (data.ivardata ivar) ivar.signature = none)
  /-- The type is broken, and `describe_ivar` goes on. -/
  | broken (output : List Char) (hhead : output.head? ≠ some '<')
      (hivar : describeIvar nextType printer data sep ivar = some (named sep ivar ++ output, true))
      (hmemory : describeMemory nextType printer (data.ivardata ivar) ivar.signature =
        some (false, brokenType))
  /-- The type is not broken, and `describe_ivar` says that it is. -/
  | empty (output : List Char) (hempty : EmptyAtStart nextType printer data ivar)
      (hivar : describeIvar nextType printer data sep ivar =
        some (named sep ivar ++ (output ++ brokenType), false))
      (hmemory : describeMemory nextType printer (data.ivardata ivar) ivar.signature =
        some (true, output))
  | decodable (output : List Char) (hempty : ¬EmptyAtStart nextType printer data ivar)
      (hivar : describeIvar nextType printer data sep ivar = some (named sep ivar ++ output, true))
      (hmemory : describeMemory nextType printer (data.ivardata ivar) ivar.signature =
        some (true, output))

variable (nextType printer) in
theorem described (hbytes : data.bytes ≠ 0) (sep : List Char) (ivar : Ivar) :
    Described nextType printer data sep ivar := by
  have hivar {o : Option Outcome}
      (h : describeData nextType printer (data.ivardata ivar) ivar.signature [] = o) :
      describeIvar nextType printer data sep ivar = (o.bind Outcome.address).map fun r =>
        if r.1 = data.bytes then (named sep ivar ++ (r.2 ++ brokenType), false)
        else (named sep ivar ++ r.2, true) := by
    rw [describeIvar, h]
  cases h : describeData nextType printer (data.ivardata ivar) ivar.signature [] with
  | none => exact .undefined (hivar h) (by rw [describeMemory, h]; rfl)
  | some o =>
    rcases o with _ | output | ⟨p, rest, output, reads⟩
    · exact .undefined (hivar h) (by rw [describeMemory, h]; rfl)
    · refine .broken output (head_null h) ?_ (by rw [describeMemory, h]; rfl)
      rw [hivar h, Option.bind_some, Outcome.address, Option.map_some, if_neg hbytes.symm]
    · have hpacked := packed_of_describeData h
      have hle : data.bytes + ivar.offset ≤ p := hpacked.le
      have hp : p ≠ 0 := by omega
      have hmemory : describeMemory nextType printer (data.ivardata ivar) ivar.signature =
          some (true, output) := by
        rw [describeMemory, h, Option.bind_some]
        exact congrArg some (if_neg hp)
      by_cases hstart : p = data.bytes
      · have hoffset : ivar.offset = 0 := by omega
        have hbegin : (data.ivardata ivar).bytes = p := by
          change data.bytes + ivar.offset = p
          omega
        rw [hbegin] at hpacked
        obtain rfl := hpacked.eq_nil
        refine .empty output ⟨hoffset, p, rest, output, h⟩ ?_ hmemory
        rw [hivar h, Option.bind_some, Outcome.address, Option.map_some, if_pos hstart]
      · refine .decodable output ?_ ?_ hmemory
        · rintro ⟨hoffset, p', rest', output', h'⟩
          obtain ⟨rfl, _, _, rfl⟩ := Outcome.done.inj (Option.some.inj (h.symm.trans h'))
          have hbegin : data.bytes + ivar.offset = p := hpacked
          omega
        · rw [hivar h, Option.bind_some, Outcome.address, Option.map_some, if_neg hstart]

/-- The separator of the instance variables behind the first. -/
theorem head_describeEach (hbytes : data.bytes ≠ 0)
    (h : describeEach nextType printer data [',', '\n', ' ', ' ', ' '] ivars = some output) :
    output.head? ≠ some '<' := by
  cases ivars with
  | nil =>
    obtain rfl := Option.some.inj h
    simp
  | cons ivar ivars =>
    have hhead (s : List Char) : (named [',', '\n', ' ', ' ', ' '] ivar ++ s).head? ≠ some '<' := by
      simp [named]
    rw [describeEach] at h
    obtain ⟨r, hr, h⟩ := Option.bind_eq_some_iff.mp h
    have hr₁ : ∃ s, r.1 = named [',', '\n', ' ', ' ', ' '] ivar ++ s := by
      cases described nextType printer hbytes [',', '\n', ' ', ' ', ' '] ivar with
      | undefined hivar =>
        rw [hivar] at hr
        contradiction
      | broken _ _ hivar | empty _ _ hivar | decodable _ _ hivar =>
        rw [hivar, Option.some.injEq] at hr
        exact ⟨_, (congrArg Prod.fst hr).symm⟩
    obtain ⟨s, hs⟩ := hr₁
    split at h
    next =>
      obtain ⟨w, _, rfl⟩ := Option.map_eq_some_iff.mp h
      rw [hs, List.append_assoc]
      exact hhead _
    next =>
      obtain rfl := Option.some.inj h
      rw [hs]
      exact hhead s

theorem head_reportEach
    (h : reportEach nextType printer data [',', '\n', ' ', ' ', ' '] ivars = some output) :
    output.head? ≠ some '<' := by
  cases ivars with
  | nil =>
    obtain rfl := Option.some.inj h
    simp
  | cons ivar ivars =>
    have hhead (s : List Char) : (named [',', '\n', ' ', ' ', ' '] ivar ++ s).head? ≠ some '<' := by
      simp [named]
    rw [reportEach] at h
    obtain ⟨r, _, h⟩ := Option.bind_eq_some_iff.mp h
    split at h
    next =>
      obtain ⟨w, _, rfl⟩ := Option.map_eq_some_iff.mp h
      rw [List.append_assoc]
      exact hhead _
    next =>
      obtain rfl := Option.some.inj h
      exact hhead _

/-- Both say the same as long as `describe_ivar` need not stop, and does not. -/
theorem describeEach_reportEach_iff (hbytes : data.bytes ≠ 0) (sep : List Char) :
    (∃ output, describeEach nextType printer data sep ivars = some output ∧
      reportEach nextType printer data sep ivars = some output) ↔
    ∀ ivar ∈ ivars,
      Decodable nextType printer data ivar ∧ ¬EmptyAtStart nextType printer data ivar := by
  induction ivars generalizing sep with
  | nil => simp [describeEach, reportEach]
  | cons ivar ivars ih =>
    rw [List.forall_mem_cons, describeEach, reportEach]
    cases described nextType printer hbytes sep ivar with
    | undefined hivar hmemory =>
      rw [hivar, hmemory]
      constructor
      · rintro ⟨_, h, _⟩
        contradiction
      · rintro ⟨⟨⟨_, hdecodable⟩, _⟩, _⟩
        exact absurd (hmemory.symm.trans hdecodable) (by simp)
    | broken output hhead hivar hmemory =>
      rw [hivar, hmemory]
      constructor
      · rintro ⟨_, hwalk, hreport⟩
        obtain ⟨w, hw, rfl⟩ := Option.map_eq_some_iff.mp hwalk
        obtain htext := List.append_cancel_left
          ((Option.some.inj hreport).trans (List.append_assoc _ _ _))
        cases output with
        | nil => exact absurd (congrArg List.head? htext).symm (head_describeEach hbytes hw)
        | cons c output => exact absurd (congrArg List.head? htext).symm hhead
      · rintro ⟨⟨⟨_, hdecodable⟩, _⟩, _⟩
        exact absurd (hmemory.symm.trans hdecodable) (by simp)
    | empty output hempty hivar hmemory =>
      rw [hivar, hmemory]
      constructor
      · rintro ⟨_, hwalk, hreport⟩
        obtain ⟨w, hw, rfl⟩ := Option.map_eq_some_iff.mp hreport
        have htext := (Option.some.inj hwalk).trans (List.append_assoc _ _ _)
        have hbroken := List.append_cancel_left (List.append_cancel_left htext)
        exact absurd (congrArg List.head? hbroken).symm (head_reportEach hw)
      · rintro ⟨⟨_, hnot⟩, _⟩
        exact absurd hempty hnot
    | decodable output hempty hivar hmemory =>
      rw [hivar, hmemory, ← ih [',', '\n', ' ', ' ', ' ']]
      constructor
      · rintro ⟨_, hwalk, hreport⟩
        obtain ⟨w, hw, rfl⟩ := Option.map_eq_some_iff.mp hwalk
        obtain ⟨w', hw', htext⟩ := Option.map_eq_some_iff.mp hreport
        obtain rfl := List.append_cancel_left htext
        exact ⟨⟨⟨output, hmemory⟩, hempty⟩, w', hw, hw'⟩
      · rintro ⟨_, w, hw, hw'⟩
        exact ⟨named sep ivar ++ output ++ w, Option.map_eq_some_iff.mpr ⟨w, hw, rfl⟩,
          Option.map_eq_some_iff.mpr ⟨w, hw', rfl⟩⟩

end Walk

theorem enclosed_injective : Function.Injective enclosed := by
  intro a b h
  have htail := (List.cons.inj h).2
  split at htail
  next ha =>
    split at htail
    next hb => rw [ha, hb]
    next hb =>
      have hlength := congrArg List.length htail
      simp [ha] at hlength
  next ha =>
    split at htail
    next hb =>
      have hlength := congrArg List.length htail
      simp [hb] at hlength
    next hb => exact List.append_cancel_right htail

/-- Undecodable instance variables are reported exactly if there are none to be reported, and
none at the start of the object that takes no bytes, which is reported too. -/
theorem reportsBroken_iff {nextType : List Char → List Char} {printer : Printer}
    {data : Data} {ivars : List Ivar} (hbytes : data.bytes ≠ 0) :
    ReportsBroken nextType printer data ivars ↔
      ∀ ivar ∈ ivars, Decodable nextType printer data ivar ∧
        ¬EmptyAtStart nextType printer data ivar := by
  rw [← describeEach_reportEach_iff hbytes ['\n', ' ', ' ', ' ']]
  constructor
  · rintro ⟨output, hwalk, hreport⟩
    obtain ⟨w, hw, henclosed⟩ := Option.map_eq_some_iff.mp hwalk
    obtain rfl := enclosed_injective henclosed
    exact ⟨w, hw, hreport⟩
  · rintro ⟨output, hwalk, hreport⟩
    exact ⟨output, Option.map_eq_some_iff.mpr ⟨output, hwalk, rfl⟩, hreport⟩

/-- An object with a count. -/
theorem count_reported :
    ReportsBroken skipType (.letter 'x') ⟨16, 8⟩ [⟨"_count".toList, ['Q'], 0⟩] := by
  refine (reportsBroken_iff (by decide)).mpr ?_
  intro ivar hivar
  obtain rfl := List.mem_singleton.mp hivar
  constructor
  · exact ⟨['x'], by decide⟩
  · rintro ⟨_, p, rest, output, h⟩
    have hdescribed : describeData skipType (.letter 'x') ⟨16, 8⟩ ['Q'] [] =
        some (.done 24 (some []) ['x'] [⟨.scalar .unsignedLongLong, 16⟩]) := by decide
    have hreads := (Outcome.done.inj (Option.some.inj (hdescribed.symm.trans h))).2.2.2
    simp at hreads

/-- A broken type is described by question marks, and the walk goes on. -/
theorem kaputt_not_reported :
    ¬ReportsBroken skipType (.letter 'x') ⟨16, 24⟩
      [⟨"_a".toList, "]kaputt[".toList, 8⟩, ⟨"_b".toList, ['i'], 16⟩] := by
  rintro ⟨output, hwalk, hreport⟩
  have hwalk' : describeIvars skipType (.letter 'x') ⟨16, 24⟩
      [⟨"_a".toList, "]kaputt[".toList, 8⟩, ⟨"_b".toList, ['i'], 16⟩] =
        some (enclosed "\n   _a = ???,\n   _b = x".toList) := by decide
  have hreport' : reportEach skipType (.letter 'x') ⟨16, 24⟩ ['\n', ' ', ' ', ' ']
      [⟨"_a".toList, "]kaputt[".toList, 8⟩, ⟨"_b".toList, ['i'], 16⟩] =
        some "\n   _a = <broken type>".toList := by decide
  obtain rfl := Option.some.inj (hreport'.symm.trans hreport)
  have htext := Option.some.inj (hwalk'.symm.trans hwalk)
  exact absurd htext (by decide)

end MulleObjC.Describe
