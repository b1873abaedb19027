import Mathlib.Data.List.Nodup
import Mathlib.Logic.Function.Basic

/-!
# Chains of implementations

A selector can have several implementations in a class, that of the class itself and those of its
categories. `_mulle_objc_class_search_clobber_chain` starts the search for a method again and
again, each time behind the method that was found last. `MulleObjCClassCollectImplementations`
has one search call `imp_collector` for each method. The search itself belongs to the runtime.
-/

namespace MulleObjC.Search

/-- A `classid`, a `categoryid` or a selector. -/
abbrev Id := BitVec 32

/-- The result of a search: a method, and the class and the category that it is in. -/
structure Result (IMP : Type*) where
  classid : Id
  categoryid : Id
  imp : IMP
  deriving DecidableEq, Repr

/-- The class and the category of a method. -/
def Result.key {IMP : Type*} (r : Result IMP) : Id × Id := (r.classid, r.categoryid)

/-- `struct _mulle_objc_searcharguments` -/
inductive SearchArguments
  | default (sel : Id)
  | overridden (sel classid categoryid : Id)
  deriving DecidableEq, Repr

/-- `mulle_objc_walkcommand_t` -/
inductive WalkCommand
  | ok
  | cancel
  deriving DecidableEq, Repr

/-- `mulle_objc_callback_t`: what is called with a result and with the array that the arguments
carry, `userinfo`. -/
abbrev Callback (IMP : Type*) := Result IMP → List IMP → WalkCommand × List IMP

/-- What the runtime has. -/
structure Runtime (Class IMP : Type*) where
  /-- `_mulle_objc_class_get_inheritance` -/
  inheritance : Class → BitVec 32
  /-- `mulle_objc_infraclass_get_classid` -/
  classid : Class → Id
  /-- `MULLE_OBJC_CLASS_DONT_INHERIT_SUPERCLASS` -/
  dontInheritSuperclass : BitVec 32
  /-- `MULLE_OBJC_CLASS_DONT_INHERIT_PROTOCOLS` -/
  dontInheritProtocols : BitVec 32
  /-- `MULLE_OBJC_CLASS_DONT_INHERIT_PROTOCOL_CATEGORIES` -/
  dontInheritProtocolCategories : BitVec 32
  /-- `mulle_objc_class_search_method`, without a callback. -/
  searchMethod : Class → SearchArguments → (inheritance : BitVec 32) → Option (Result IMP)
  /-- `mulle_objc_class_search_method` with default arguments, a stop class and a callback: what
  becomes of the array. -/
  searchMethodCallback : Class → (sel stopClassid : Id) → (inheritance : BitVec 32) →
    Callback IMP → List IMP → List IMP

namespace Runtime

variable {Class IMP : Type*} (rt : Runtime Class IMP)

/-- The bits of `_mulle_objc_class_search_clobber_chain`. -/
def clobberInheritance (cls : Class) : BitVec 32 :=
  rt.inheritance cls ||| rt.dontInheritSuperclass ||| rt.dontInheritProtocols |||
    rt.dontInheritProtocolCategories

/-- `for(;;)` in `_mulle_objc_class_search_clobber_chain`, with `p` as an index. -/
def searchLoop (cls : Class) (sel : Id) (n : ℕ) :
    ℕ → SearchArguments → ℕ → (ℕ → IMP) → Option (ℕ × (ℕ → IMP))
  | 0, _, _, _ => none
  | fuel + 1, args, p, array =>
    match rt.searchMethod cls args (rt.clobberInheritance cls) with
    | none => some (p, array)
    | some r =>
      searchLoop cls sel n fuel (.overridden sel r.classid r.categoryid) (p + 1)
        (if p < n then Function.update array p r.imp else array)

/-- `_mulle_objc_class_search_clobber_chain`: what it returns, and the memory from `array` on. -/
def searchClobberChain (fuel : ℕ) (cls : Class) (sel : Id) (array : ℕ → IMP) (n : ℕ) :
    Option (ℕ × (ℕ → IMP)) :=
  rt.searchLoop cls sel n fuel (.default sel) 0 array

end Runtime

/-- `imp_collector` -/
def impCollector {IMP : Type*} : Callback IMP := fun result array =>
  (.ok, array ++ [result.imp])

/-- `struct MulleObjCCollectionInfo` -/
structure CollectionInfo (Class : Type*) where
  stopClass : Option Class
  selector : Id
  inheritance : BitVec 32

/-- `MulleObjCClassCollectImplementations`: what becomes of the array. -/
def Runtime.collectImplementations {Class IMP : Type*} (rt : Runtime Class IMP) :
    Option Class → Option (CollectionInfo Class) → List IMP → List IMP
  | some startClass, some info, array =>
    let stopClassid := (info.stopClass.map rt.classid).getD 0
    let inheritance :=
      if info.inheritance = 0 then rt.inheritance startClass else info.inheritance
    rt.searchMethodCallback startClass info.selector stopClassid inheritance impCollector array
  | _, _, array => array

variable {Class IMP : Type*}

/-- What is known of the search of the runtime: for each class and selector there is a list of
methods, in the order of the search. -/
structure Runtime.Searches (rt : Runtime Class IMP)
    (methods : Class → (inheritance : BitVec 32) → (sel : Id) → List (Result IMP)) : Prop where
  dontInheritSuperclass_ne : rt.dontInheritSuperclass ≠ 0
  default : ∀ cls inheritance sel,
    rt.searchMethod cls (.default sel) inheritance = (methods cls inheritance sel).head?
  /-- The search goes on behind the first method with the class and the category. -/
  overridden : ∀ cls inheritance sel rs r rs', methods cls inheritance sel = rs ++ r :: rs' →
    (∀ a ∈ rs, a.key ≠ r.key) →
    rt.searchMethod cls (.overridden sel r.classid r.categoryid) inheritance = rs'.head?
  /-- Without a stop class a callback that always goes on is called for each method. -/
  callback : ∀ cls inheritance sel (callback : Callback IMP) array,
    (∀ r array, (callback r array).1 = .ok) →
    rt.searchMethodCallback cls sel 0 inheritance callback array =
      (methods cls inheritance sel).foldl (fun array r => (callback r array).2) array

section Search

variable {rt : Runtime Class IMP}
  {methods : Class → (inheritance : BitVec 32) → (sel : Id) → List (Result IMP)} {cls : Class}
  {sel : Id} {inheritance : BitVec 32} {rs : List (Result IMP)} {r : Result IMP} {i : ℕ}

/-- There is a first method with a key. -/
theorem exists_first (hi : rs[i]? = some r) : ∃ front a back, rs = front ++ a :: back ∧
    a.key = r.key ∧ ∀ b ∈ front, b.key ≠ r.key := by
  have hmem : r.key ∈ rs.map Result.key := List.mem_map_of_mem (List.mem_of_getElem? hi)
  obtain ⟨keys, keys', hkeys, hnot⟩ := List.eq_append_cons_of_mem hmem
  obtain ⟨front, rest, rfl, rfl, hrest⟩ := List.map_eq_append_iff.mp hkeys
  obtain ⟨a, back, rfl, hkey, -⟩ := List.map_eq_cons_iff.mp hrest
  exact ⟨front, a, back, rfl, hkey, fun b hb heq => hnot (heq ▸ List.mem_map_of_mem hb)⟩

/-- The search goes on behind the first method with the same key. -/
theorem Runtime.Searches.next (h : rt.Searches methods)
    (hi : (methods cls inheritance sel)[i]? = some r) :
    ∃ k, rt.searchMethod cls (.overridden sel r.classid r.categoryid) inheritance =
        (methods cls inheritance sel)[k + 1]? ∧
      (∃ a, (methods cls inheritance sel)[k]? = some a ∧ a.key = r.key) ∧
      ∀ j b, (methods cls inheritance sel)[j]? = some b → b.key = r.key → k ≤ j := by
  obtain ⟨front, a, back, hmethods, hkey, hfront⟩ := exists_first hi
  have hsearch := h.overridden cls inheritance sel front a back hmethods (by rwa [hkey])
  obtain ⟨hclassid, hcategoryid⟩ := Prod.mk.inj hkey
  rw [hclassid, hcategoryid] at hsearch
  refine ⟨front.length, ?_, ⟨a, ?_, hkey⟩, fun j b hb hbkey => ?_⟩
  · rw [hsearch, hmethods, List.getElem?_append_right (Nat.le_add_right _ 1),
      Nat.add_sub_cancel_left, List.getElem?_cons_succ, List.head?_eq_getElem?]
  · simp [hmethods]
  · by_contra hlt
    rw [hmethods, List.getElem?_append_left (Nat.lt_of_not_le hlt)] at hb
    exact hfront b (List.mem_of_getElem? hb) hbkey

/-- If the keys differ, the search goes on behind the method itself. -/
theorem Runtime.Searches.next_of_nodup (h : rt.Searches methods)
    (hnodup : ((methods cls inheritance sel).map Result.key).Nodup)
    (hi : (methods cls inheritance sel)[i]? = some r) :
    rt.searchMethod cls (.overridden sel r.classid r.categoryid) inheritance =
      (methods cls inheritance sel)[i + 1]? := by
  obtain ⟨k, hsearch, ⟨a, ha, hkey⟩, -⟩ := h.next hi
  have hsame : ((methods cls inheritance sel).map Result.key)[k]? =
      ((methods cls inheritance sel).map Result.key)[i]? := by
    rw [List.getElem?_map, List.getElem?_map, ha, hi]
    exact congrArg some hkey
  have hlt : k < ((methods cls inheritance sel).map Result.key).length := by
    rw [List.length_map]
    exact (List.getElem?_eq_some_iff.mp ha).1
  rw [hsearch, (List.getElem?_inj hlt hnodup).mp hsame]

/-- What is written from the index `p` on: the implementations, as far as they fit. -/
def written (rs : List (Result IMP)) (n p : ℕ) (array : ℕ → IMP) (i : ℕ) : IMP :=
  if p ≤ i ∧ i < n then ((rs[i]?).map Result.imp).getD (array i) else array i

theorem written_of_length_le {n p : ℕ} (hp : rs.length ≤ p) (array : ℕ → IMP) :
    written rs n p array = array := by
  funext i
  rw [written]
  split
  next hi => rw [List.getElem?_eq_none (Nat.le_trans hp hi.1), Option.map_none, Option.getD_none]
  next => rfl

/-- One implementation is written after the other. -/
theorem written_succ {n p : ℕ} (hp : rs[p]? = some r) (array : ℕ → IMP) :
    written rs n (p + 1) (if p < n then Function.update array p r.imp else array) =
      written rs n p array := by
  have hother (i : ℕ) (hi : i ≠ p) :
      (if p < n then Function.update array p r.imp else array) i = array i := by
    split
    next => exact Function.update_of_ne hi _ _
    next => rfl
  have hself : (if p < n then Function.update array p r.imp else array) p =
      if p < n then r.imp else array p := by
    split
    next => exact Function.update_self _ _ _
    next => rfl
  generalize (if p < n then Function.update array p r.imp else array) = array' at hother hself
  funext i
  rw [written, written]
  rcases Nat.lt_trichotomy i p with hlt | rfl | hlt
  · rw [if_neg (by omega), if_neg (by omega), hother i (by omega)]
  · rw [if_neg (by omega), hself]
    by_cases hn : i < n
    · simp [hn, hp]
    · simp [hn]
  · rw [hother i (by omega)]
    by_cases hn : i < n
    · rw [if_pos (by omega), if_pos (by omega)]
    · rw [if_neg (by omega), if_neg (by omega)]

/-- If the keys differ, the loop comes to an end behind the last method. -/
theorem Runtime.Searches.searchLoop_eq (h : rt.Searches methods)
    (hnodup : ((methods cls (rt.clobberInheritance cls) sel).map Result.key).Nodup) {n fuel p : ℕ}
    {args : SearchArguments} {array : ℕ → IMP}
    (hargs : rt.searchMethod cls args (rt.clobberInheritance cls) =
      (methods cls (rt.clobberInheritance cls) sel)[p]?)
    (hp : p ≤ (methods cls (rt.clobberInheritance cls) sel).length) :
    rt.searchLoop cls sel n fuel args p array =
      if (methods cls (rt.clobberInheritance cls) sel).length < p + fuel then
        some ((methods cls (rt.clobberInheritance cls) sel).length,
          written (methods cls (rt.clobberInheritance cls) sel) n p array)
      else none := by
  induction fuel generalizing args p array with
  | zero => rw [if_neg (by omega), Runtime.searchLoop]
  | succ fuel ih =>
    rw [Runtime.searchLoop, hargs]
    cases hr : (methods cls (rt.clobberInheritance cls) sel)[p]? with
    | none =>
      have hend := List.getElem?_eq_none_iff.mp hr
      rw [if_pos (by omega), written_of_length_le hend, Nat.le_antisymm hp hend]
    | some r =>
      have hlt := (List.getElem?_eq_some_iff.mp hr).1
      dsimp only
      rw [ih (h.next_of_nodup hnodup hr) hlt, written_succ hr, Nat.add_right_comm, Nat.add_assoc]

/-- If a method has the key of an earlier one, the loop never comes behind it. -/
theorem Runtime.Searches.searchLoop_eq_none (h : rt.Searches methods) {j j' : ℕ} {a a' : Result IMP}
    (hlt : j' < j) (ha : (methods cls (rt.clobberInheritance cls) sel)[j]? = some a)
    (ha' : (methods cls (rt.clobberInheritance cls) sel)[j']? = some a') (hkey : a'.key = a.key)
    {n fuel p : ℕ} {args : SearchArguments} {array : ℕ → IMP}
    (hargs : ∃ k ≤ j, rt.searchMethod cls args (rt.clobberInheritance cls) =
      (methods cls (rt.clobberInheritance cls) sel)[k]?) :
    rt.searchLoop cls sel n fuel args p array = none := by
  induction fuel generalizing args p array with
  | zero => rfl
  | succ fuel ih =>
    obtain ⟨k, hk, hargs⟩ := hargs
    have hlength := (List.getElem?_eq_some_iff.mp ha).1
    obtain ⟨r, hr⟩ : ∃ r, (methods cls (rt.clobberInheritance cls) sel)[k]? = some r :=
      ⟨_, List.getElem?_eq_getElem (by omega)⟩
    rw [Runtime.searchLoop, hargs, hr]
    obtain ⟨first, hsearch, -, hle⟩ := h.next hr
    refine ih ⟨first + 1, ?_, hsearch⟩
    -- The search comes back to what is behind the earlier method at the latest.
    by_cases hkj : k = j
    · subst hkj
      obtain rfl := Option.some.inj (ha.symm.trans hr)
      have hfirst := hle j' a' ha' hkey
      omega
    · have hfirst := hle k r hr rfl
      omega

/-- `imp_collector` is called for each method. -/
theorem Runtime.Searches.collectImplementations_eq (h : rt.Searches methods)
    (hinheritance : inheritance ≠ 0) :
    rt.collectImplementations (some cls) (some ⟨none, sel, inheritance⟩) [] =
      (methods cls inheritance sel).map Result.imp := by
  have hfold (array : List IMP) (rs : List (Result IMP)) :
      rs.foldl (fun array r => (impCollector r array).2) array = array ++ rs.map Result.imp := by
    induction rs generalizing array with
    | nil => simp
    | cons r rs ih =>
      rw [List.foldl_cons, ih]
      simp [impCollector]
  simp only [Runtime.collectImplementations, if_neg hinheritance, Option.map_none,
    Option.getD_none]
  rw [h.callback _ _ _ _ _ fun _ _ => rfl, hfold, List.nil_append]

theorem Runtime.Searches.clobberInheritance_ne (h : rt.Searches methods) (cls : Class) :
    rt.clobberInheritance cls ≠ 0 := by
  intro hzero
  have hprotocols := (BitVec.or_eq_zero_iff.mp hzero).1
  have hsuperclass := (BitVec.or_eq_zero_iff.mp hprotocols).1
  exact h.dontInheritSuperclass_ne (BitVec.or_eq_zero_iff.mp hsuperclass).2

/-- The chain of implementations ends if and only if no two of them are in the same class and
category. Then it counts, whatever fits, the implementations that are collected with the same
bits, and writes those of them that fit, and nothing behind them. -/
theorem searchClobberChain_iff (h : rt.Searches methods) (cls : Class) (sel : Id) (array : ℕ → IMP)
    (n : ℕ) :
    ((∃ fuel r, rt.searchClobberChain fuel cls sel array n = some r) ↔
      ((methods cls (rt.clobberInheritance cls) sel).map Result.key).Nodup) ∧
    ∀ fuel count array', rt.searchClobberChain fuel cls sel array n = some (count, array') →
      let collected := rt.collectImplementations (some cls)
        (some ⟨none, sel, rt.clobberInheritance cls⟩) []
      count = collected.length ∧
        ∀ i, array' i = if i < n then (collected[i]?).getD (array i) else array i := by
  have hstart : rt.searchMethod cls (.default sel) (rt.clobberInheritance cls) =
      (methods cls (rt.clobberInheritance cls) sel)[0]? := by
    rw [h.default, List.head?_eq_getElem?]
  have hnodup : (∃ fuel r, rt.searchClobberChain fuel cls sel array n = some r) →
      ((methods cls (rt.clobberInheritance cls) sel).map Result.key).Nodup := by
    rintro ⟨fuel, r, hr⟩
    rw [List.nodup_iff_getElem?_ne_getElem?]
    intro j' j hlt hj hkey
    rw [List.length_map] at hj
    have ha := List.getElem?_eq_getElem hj
    have ha' := List.getElem?_eq_getElem (Nat.lt_trans hlt hj)
    rw [List.getElem?_map, List.getElem?_map, ha, ha'] at hkey
    have hnone : rt.searchLoop cls sel n fuel (.default sel) 0 array = none :=
      h.searchLoop_eq_none hlt ha ha' (Option.some.inj hkey) ⟨0, Nat.zero_le j, hstart⟩
    cases hnone.symm.trans hr
  refine ⟨⟨hnodup, fun hnodup => ?_⟩, fun fuel count array' hr => ?_⟩
  · refine ⟨(methods cls (rt.clobberInheritance cls) sel).length + 1, _,
      (h.searchLoop_eq hnodup hstart (Nat.zero_le _)).trans (if_pos (by omega))⟩
  · rw [Runtime.searchClobberChain,
      h.searchLoop_eq (hnodup ⟨fuel, _, hr⟩) hstart (Nat.zero_le _)] at hr
    obtain ⟨-, hr⟩ := Option.ite_none_right_eq_some.mp hr
    obtain ⟨rfl, rfl⟩ := Prod.mk.inj (Option.some.inj hr)
    dsimp only
    rw [h.collectImplementations_eq (h.clobberInheritance_ne cls), List.length_map]
    refine ⟨rfl, fun i => ?_⟩
    rw [written, List.getElem?_map]
    simp

end Search

/-- A class without anything to inherit, with these methods for every selector. -/
def listed (rs : List (Result IMP)) : Runtime Unit IMP where
  inheritance _ := 0
  classid _ := 1
  dontInheritSuperclass := 0b1
  dontInheritProtocols := 0b100
  dontInheritProtocolCategories := 0b1000
  searchMethod _ args _ :=
    match args with
    | .default _ => rs.head?
    | .overridden _ classid categoryid =>
      ((rs.dropWhile fun r => decide (r.key ≠ (classid, categoryid))).tail).head?
  searchMethodCallback _ _ stopClassid _ callback array :=
    if stopClassid = 1 then array
    else rs.foldl (fun array r => (callback r array).2) array

theorem listed_searches (rs : List (Result IMP)) : (listed rs).Searches fun _ _ _ => rs where
  dontInheritSuperclass_ne := by
    change (0b1 : BitVec 32) ≠ 0
    decide
  default _ _ _ := rfl
  overridden := by
    rintro - - - front r back rfl hfront
    have hne (a : Result IMP) (ha : a ∈ front) : decide (a.key ≠ r.key) = true :=
      decide_eq_true (hfront a ha)
    change (((front ++ r :: back).dropWhile fun a => decide (a.key ≠ r.key)).tail).head? = _
    rw [List.dropWhile_append_of_pos hne, List.dropWhile_cons_of_neg (by simp), List.tail_cons]
  callback _ _ _ _ _ _ := rfl

/-- In a class with two categories the chain ends. If one of the categories has a second
implementation, the chain comes back to it for ever. -/
theorem searchClobberChain_iff_categories :
    (∃ fuel r, (listed [⟨1, 3, 12⟩, ⟨1, 2, 11⟩, ⟨1, 0, 10⟩]).searchClobberChain fuel () 5
      (fun _ => 0) 2 = some r) ∧
    ¬∃ fuel r, (listed [⟨1, 3, 12⟩, ⟨1, 2, 11⟩, ⟨1, 3, 10⟩]).searchClobberChain fuel () 5
      (fun _ => 0) 2 = some r := by
  constructor
  · exact (searchClobberChain_iff (listed_searches _) () 5 _ 2).1.mpr (by decide)
  · rw [(searchClobberChain_iff (listed_searches _) () 5 _ 2).1]
    decide

/-- There are three, of which two fit. -/
example : ((listed [⟨1, 3, 12⟩, ⟨1, 2, 11⟩, ⟨1, 0, 10⟩]).searchClobberChain 4 () 5
    (fun _ => 0) 2).map (fun (n, array) => (n, array 0, array 1, array 2)) =
      some (3, 12, 11, 0) := by
  decide

end MulleObjC.Search
