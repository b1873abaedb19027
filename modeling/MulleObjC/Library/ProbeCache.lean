import Mathlib.Data.List.Basic

/-!
# Caches that are probed and filled

A cache maps some keys to values. Filling it can drop any of the older entries, and
a fresh cache has none. Next to the entries there is one more word, which a cache
hands on to the one that replaces it.
-/

/-- A cache with its entries, the newest first, and its extra word. -/
structure ProbeCache (Key Val Word : Type*) where
  entries : List (Key × Val)
  userinfo : Option Word

namespace ProbeCache

variable {Key Val Word : Type*} [DecidableEq Key]

/-- A cache without anything in it. -/
def new : ProbeCache Key Val Word := ⟨[], none⟩

variable (c : ProbeCache Key Val Word)

/-- The value of a key, if there is an entry for it. -/
def probe (k : Key) : Option Val := c.entries.lookup k

/-- Add an entry. A cache that grows for it keeps what it likes of the others. -/
def fill (k : Key) (v : Val) (kept : Key → Bool) : ProbeCache Key Val Word :=
  { c with entries := (k, v) :: c.entries.filter fun e => kept e.1 }

/-- A cache without entries in place of this one. -/
def fresh : ProbeCache Key Val Word := { c with entries := [] }

/-- Every entry has the value that `f` computes. -/
def Agrees (f : Key → Option Val) : Prop := ∀ ⦃k v⦄, c.probe k = some v → f k = some v

@[simp] theorem probe_new (k : Key) : (new : ProbeCache Key Val Word).probe k = none := rfl

@[simp] theorem probe_fresh (k : Key) : c.fresh.probe k = none := rfl

omit [DecidableEq Key] in
@[simp] theorem userinfo_fresh : c.fresh.userinfo = c.userinfo := rfl

omit [DecidableEq Key] in
@[simp] theorem userinfo_fill (k : Key) (v : Val) (kept : Key → Bool) :
    (c.fill k v kept).userinfo = c.userinfo := rfl

@[simp] theorem probe_fill_self (k : Key) (v : Val) (kept : Key → Bool) :
    (c.fill k v kept).probe k = some v := by
  simp [probe, fill]

theorem probe_eq_none_of_entries (h : c.entries = []) (k : Key) : c.probe k = none := by
  simp [probe, h]

variable {c}

/-- The entries that are left of a list have the values that they had. -/
theorem lookup_of_lookup_filter {es : List (Key × Val)} {kept : Key → Bool} {k : Key} {v : Val}
    (h : (es.filter fun e => kept e.1).lookup k = some v) : es.lookup k = some v := by
  have hkept : kept k = true := by
    obtain ⟨l₁, l₂, hes, _⟩ := List.lookup_eq_some_iff.mp h
    have hmem : (k, v) ∈ es.filter fun e => kept e.1 := by simp [hes]
    exact (List.mem_filter.mp hmem).2
  induction es with
  | nil => exact h
  | cons e es ih =>
    obtain ⟨j, w⟩ := e
    by_cases hk : k = j
    · subst hk
      simpa [List.filter_cons, hkept] using h
    · have hk' : (k == j) = false := by simpa using hk
      rw [List.lookup_cons, hk']
      apply ih
      by_cases hj : kept j = true
      · simpa [List.filter_cons, hj, List.lookup_cons, hk'] using h
      · simpa [List.filter_cons, hj] using h

theorem probe_of_probe_fill {k k' : Key} {v w : Val} {kept : Key → Bool} (hne : k' ≠ k)
    (h : (c.fill k v kept).probe k' = some w) : c.probe k' = some w := by
  have hne' : (k' == k) = false := by simpa using hne
  rw [probe, fill, List.lookup_cons, hne'] at h
  exact lookup_of_lookup_filter h

theorem Agrees.new {f : Key → Option Val} : (new : ProbeCache Key Val Word).Agrees f := by
  intro k v h
  simp at h

theorem Agrees.fresh {f : Key → Option Val} : c.fresh.Agrees f := by
  intro k v h
  simp at h

/-- An entry with the value of the function can be added. -/
theorem Agrees.fill {f : Key → Option Val} (hc : c.Agrees f) {k : Key} {v : Val}
    (hk : f k = some v) (kept : Key → Bool) : (c.fill k v kept).Agrees f := by
  intro k' w h
  by_cases hne : k' = k
  · subst hne
    rw [probe_fill_self] at h
    rw [hk, h]
  · exact hc (probe_of_probe_fill hne h)

/-- A cache keeps its agreement if the function does not change at the cached keys. -/
theorem Agrees.congr {f g : Key → Option Val} (hc : c.Agrees f)
    (h : ∀ k v, c.probe k = some v → g k = f k) : c.Agrees g := by
  intro k v hk
  rw [h k v hk]
  exact hc hk

end ProbeCache
