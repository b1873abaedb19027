import MulleObjC.Enum.Strict

/-!
# The common prefix of the keys

`_NS_OPTIONS_prefix_length` walks along the first key and looks at the same position of all
others. The position is bounded by the length of the first key only; what stops it inside a
shorter key is the terminator.
-/

namespace MulleObjC.Enum

/-- The inner loop: whether the other keys have `c` at `j`. -/
def sameCharAt {w : ItemLen} (c : Char) (j : ℕ) : Table w → Option Bool
  | [] => some true
  | line :: table =>
    line.s.bind fun s => (charAt s j).bind fun d =>
      if d = nul ∨ d ≠ c then some false else sameCharAt c j table

/-- The outer loop from `j` on, for the last characters of the first key. -/
def prefixLoop {w : ItemLen} (first : CString) (table : Table w) : ℕ → ℕ → Option ℕ
  | 0, j => some j
  | n + 1, j =>
    (charAt first j).bind fun c => (sameCharAt c j table).bind fun same =>
      if same then prefixLoop first table n (j + 1) else some j

/-- `_NS_OPTIONS_prefix_length`; `none` is a read behind a terminator or of a NULL key. -/
def optionsPrefixLength {w : ItemLen} : Table w → Option ℕ
  | [] => some 0
  | line :: table =>
    line.s.bind fun first => prefixLoop first table (Terminated.strlen nul first) 0

/-- The keys of a table are all set and hold no terminator. -/
def Table.NulTerminated {w : ItemLen} (table : Table w) : Prop :=
  ∀ line ∈ table, ∃ key, line.s = some key ∧ nul ∉ key

theorem Table.NulTerminated.s_eq {w : ItemLen} {table : Table w} (h : table.NulTerminated)
    {line : Item w} (hline : line ∈ table) : line.s = some line.key ∧ nul ∉ line.key := by
  obtain ⟨key, hs, hkey⟩ := h line hline
  simpa [Item.key, hs] using hkey

theorem Table.NulTerminated.tail {w : ItemLen} {line : Item w} {table : Table w}
    (h : Table.NulTerminated (line :: table)) : Table.NulTerminated table :=
  fun other hother => h other (List.mem_cons_of_mem _ hother)

/-- A string is in front of every key. -/
def Table.IsPrefix {w : ItemLen} (p : CString) (table : Table w) : Prop :=
  ∀ line ∈ table, p <+: line.key

section Prefix

variable {w : ItemLen} {table : Table w} {first : CString}

theorem Table.IsPrefix.of_cons {line : Item w} {p : CString}
    (h : Table.IsPrefix p (line :: table)) : p <+: line.key ∧ Table.IsPrefix p table :=
  ⟨h line List.mem_cons_self, fun other hother => h other (List.mem_cons_of_mem _ hother)⟩

/-- As long as no other key has ended in front of `j`, the inner loop reads nothing behind a
terminator. -/
theorem sameCharAt_eq {c : Char} {j : ℕ} (hc : c ≠ nul) (hterm : table.NulTerminated)
    (hj : ∀ line ∈ table, j ≤ line.key.length) :
    ∃ same, sameCharAt c j table = some same ∧
      (same = true ↔ ∀ line ∈ table, line.key[j]? = some c) := by
  induction table with
  | nil => exact ⟨true, rfl, by simp⟩
  | cons line table ih =>
    obtain ⟨hs, hkey⟩ := hterm.s_eq List.mem_cons_self
    obtain ⟨d, hd⟩ : ∃ d, charAt line.key j = some d :=
      Terminated.exists_read (hj line List.mem_cons_self)
    have hget : line.key[j]? = some c ↔ d = c := by
      rw [← Terminated.read_eq_some_iff hc]
      change charAt line.key j = some c ↔ d = c
      rw [hd, Option.some.injEq]
    obtain ⟨same, hsame, hiff⟩ := ih hterm.tail fun other hother =>
      hj other (List.mem_cons_of_mem _ hother)
    rw [sameCharAt, hs, Option.bind_some, hd, Option.bind_some]
    by_cases hdc : d = c
    · refine ⟨same, ?_, ?_⟩
      · rw [if_neg (by simp [hdc, hc]), hsame]
      · rw [List.forall_mem_cons, hiff, hget]
        exact (and_iff_right hdc).symm
    · refine ⟨false, if_pos (.inr hdc), ?_⟩
      rw [List.forall_mem_cons, hget]
      simp [hdc]

/-- One more character is common if every key has it at its position. -/
theorem take_succ_isPrefix {key : CString} {j : ℕ} {c : Char} (hfirst : first[j]? = some c)
    (hcommon : first.take j <+: key) (hkey : key[j]? = some c) : first.take (j + 1) <+: key := by
  obtain ⟨rest, rfl⟩ := hcommon
  have hlt : j < first.length := (List.getElem?_eq_some_iff.mp hfirst).1
  have hlen : (first.take j).length = j := List.length_take_of_le (Nat.le_of_lt hlt)
  rw [List.getElem?_append_right (Nat.le_of_eq hlen), hlen, Nat.sub_self] at hkey
  cases rest with
  | nil => cases hkey
  | cons d rest =>
    have hd : d = c := Option.some.inj hkey
    rw [List.take_add_one, hfirst, hd]
    exact ⟨rest, by simp⟩

/-- A common prefix that is longer than `j` gives every key the same character there. -/
theorem getElem?_eq_of_isPrefix {p key : CString} {j : ℕ} (hj : j < p.length)
    (hfirst : p <+: first) (hkey : p <+: key) : key[j]? = first[j]? := by
  rw [List.prefix_iff_getElem?.mp hfirst j hj, List.prefix_iff_getElem?.mp hkey j hj]

/-- What the outer loop returns when the first `j` characters are common, and `n` are left. -/
theorem prefixLoop_eq {n j : ℕ} (hfirst : nul ∉ first) (hterm : table.NulTerminated)
    (hlen : j + n = first.length) (hcommon : Table.IsPrefix (first.take j) table) :
    ∃ k ≤ first.length, prefixLoop first table n j = some k ∧
      Table.IsPrefix (first.take k) table ∧
      ∀ p, p <+: first → Table.IsPrefix p table → p.length ≤ k := by
  induction n generalizing j with
  | zero =>
    refine ⟨j, by omega, rfl, hcommon, ?_⟩
    intro p hp _
    have h := hp.length_le
    omega
  | succ n ih =>
    have hj : j < first.length := by omega
    have hread : charAt first j = some first[j] := Terminated.read_of_lt hj
    have hget : first[j]? = some first[j] := List.getElem?_eq_getElem hj
    have hc : first[j] ≠ nul := fun h => hfirst (h ▸ List.getElem_mem hj)
    have hle : ∀ line ∈ table, j ≤ line.key.length := by
      intro line hline
      have h := (hcommon line hline).length_le
      rwa [List.length_take_of_le (Nat.le_of_lt hj)] at h
    obtain ⟨same, hsame, hiff⟩ := sameCharAt_eq hc hterm hle
    rw [prefixLoop, hread, Option.bind_some, hsame, Option.bind_some]
    cases same with
    | true =>
      rw [if_pos rfl]
      apply ih (by omega)
      intro line hline
      exact take_succ_isPrefix hget (hcommon line hline) (hiff.mp rfl line hline)
    | false =>
      rw [if_neg (by decide)]
      refine ⟨j, Nat.le_of_lt hj, rfl, hcommon, ?_⟩
      intro p hp htable
      by_contra hlong
      have hall : ∀ line ∈ table, line.key[j]? = some first[j] := by
        intro line hline
        rw [getElem?_eq_of_isPrefix (by omega) hp (htable line hline), hget]
      exact absurd (hiff.mpr hall) (by decide)

end Prefix

/-- For every table of one or more keys the length is that of the longest common prefix of the
keys, and no read is behind a terminator. -/
theorem optionsPrefixLength_isLongest {w : ItemLen} (table : Table w) (hne : table ≠ [])
    (hterm : table.NulTerminated) :
    ∃ p, optionsPrefixLength table = some p.length ∧ Table.IsPrefix p table ∧
      ∀ q, Table.IsPrefix q table → q.length ≤ p.length := by
  cases table with
  | nil => exact absurd rfl hne
  | cons line table =>
    obtain ⟨hs, hkey⟩ := hterm.s_eq List.mem_cons_self
    have hempty : Table.IsPrefix (line.key.take 0) table := fun _ _ => List.nil_prefix
    obtain ⟨k, hk, hloop, hcommon, hlongest⟩ :=
      prefixLoop_eq hkey hterm.tail (Nat.zero_add _) hempty
    have hlen : (line.key.take k).length = k := List.length_take_of_le hk
    refine ⟨line.key.take k, ?_, ?_, ?_⟩
    · rw [optionsPrefixLength, hs, Option.bind_some, Terminated.strlen_eq hkey, hloop, hlen]
    · exact List.forall_mem_cons.mpr ⟨List.take_prefix k line.key, hcommon⟩
    · intro q hq
      rw [hlen]
      exact hlongest q hq.of_cons.1 hq.of_cons.2

/-- A table with a key that is a prefix of another one. -/
def prefixTable : Table .uint8 :=
  [⟨some ['N', 'S', 'A', 'b'], 1#8⟩, ⟨some ['N', 'S', 'A'], 2#8⟩, ⟨some ['N', 'S', 'A', 'c'], 4#8⟩]

/-- The keys `NSAb`, `NSA` and `NSAc`. -/
theorem optionsPrefixLength_isLongest_prefixTable :
    optionsPrefixLength prefixTable = some 3 ∧
      ∃ p, optionsPrefixLength prefixTable = some p.length ∧ Table.IsPrefix p prefixTable ∧
        ∀ q, Table.IsPrefix q prefixTable → q.length ≤ p.length := by
  refine ⟨by decide, optionsPrefixLength_isLongest prefixTable (by decide) ?_⟩
  intro line hline
  refine ⟨line.key, ?_⟩
  revert line
  decide

end MulleObjC.Enum
