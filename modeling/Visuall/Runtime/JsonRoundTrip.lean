import Visuall.Runtime.Json

/-!
# The JSON round trip

When the text that comes back denotes the value that was read.

* `Conv M heap t w` — the word `w` is what the first conversion makes of the tree `t`;
* `fromYyjson_conv`, `toYyjson_conv` — the two conversions, each by induction on the tree;
* `Representable` — no booleans, numbers of 31 bits, no NUL in a string;
* `json_roundtrip_iff` — the round trip gives the same value for these trees and no others.
-/

namespace Visuall.Runtime

open Visuall.Effect

/-! ### Objects and arrays -/

section Values

variable {s t : Json} {xs ys : List Json} {ms ns : List (Bytes × Json)} {k : Bytes}

theorem lastWith_mem {p : Bytes → Bool} (h : lastWith p ms = some t) : ∃ k, (k, t) ∈ ms ∧ p k := by
  induction ms with
  | nil => cases h
  | cons m ms ih =>
      obtain ⟨k, u⟩ := m
      rw [lastWith] at h
      cases hrest : lastWith p ms with
      | none =>
          rw [hrest, Option.none_or] at h
          split at h
          · rename_i hk
            cases h
            exact ⟨k, List.mem_cons_self, hk⟩
          · cases h
      | some u' =>
          rw [hrest, Option.some_or] at h
          obtain ⟨k', hmem, hk'⟩ := ih (hrest.trans h)
          exact ⟨k', List.mem_cons_of_mem _ hmem, hk'⟩

theorem lastWith_isSome {p : Bytes → Bool} (hmem : (k, t) ∈ ms) (hk : p k) : (lastWith p ms).isSome := by
  induction ms with
  | nil => cases hmem
  | cons m ms ih =>
      obtain ⟨k', u⟩ := m
      rw [lastWith, Option.isSome_or]
      rcases List.mem_cons.mp hmem with heq | hmem
      · cases heq
        rw [if_pos hk, Option.isSome_some, Bool.or_true]
      · rw [ih hmem, Bool.true_or]

theorem lastWith_congr {p q : Bytes → Bool} (h : ∀ m ∈ ms, p m.1 = q m.1) : lastWith p ms = lastWith q ms := by
  induction ms with
  | nil => rfl
  | cons m ms ih =>
      obtain ⟨hm, hms⟩ := List.forall_mem_cons.mp h
      obtain ⟨k, u⟩ := m
      rw [lastWith, lastWith, ih hms, show p k = q k from hm]

theorem same_arr : Same (.arr ys) (.arr xs) ↔
    ys.length = xs.length ∧ ∀ (i : ℕ) (y x : Json), ys[i]? = some y → xs[i]? = some x → Same y x := by
  constructor
  · intro h
    have hlen : Node.arr ys.length = Node.arr xs.length := Option.some_injective _ (h [])
    refine ⟨Node.arr.inj hlen, fun i y x hy hx path => ?_⟩
    have hpath := h (.index i :: path)
    rw [Json.at, Json.at, hy, hx] at hpath
    exact hpath
  · rintro ⟨hlen, hitems⟩ path
    cases path with
    | nil => exact congrArg (some ∘ Node.arr) hlen
    | cons step path =>
        cases step with
        | key k => rfl
        | index i =>
            rw [Json.at, Json.at]
            by_cases hi : i < ys.length
            · rw [List.getElem?_eq_getElem hi, List.getElem?_eq_getElem (hlen ▸ hi)]
              exact hitems i _ _ (List.getElem?_eq_getElem hi) (List.getElem?_eq_getElem (hlen ▸ hi)) path
            · rw [List.getElem?_eq_none (by omega), List.getElem?_eq_none (by omega)]

theorem same_obj : Same (.obj ns) (.obj ms) ↔ (∀ k, (valueOf ns k).isSome ↔ (valueOf ms k).isSome) ∧
    ∀ k u t, valueOf ns k = some u → valueOf ms k = some t → Same u t := by
  constructor
  · intro h
    have hkeys : Node.obj {k | (valueOf ns k).isSome} = Node.obj {k | (valueOf ms k).isSome} :=
      Option.some_injective _ (h [])
    refine ⟨fun k => Set.ext_iff.mp (Node.obj.inj hkeys) k, fun k u t hu ht path => ?_⟩
    have hpath := h (.key k :: path)
    rw [Json.at, Json.at, hu, ht] at hpath
    exact hpath
  · rintro ⟨hkeys, hvalues⟩ path
    cases path with
    | nil => exact congrArg (some ∘ Node.obj) (Set.ext hkeys)
    | cons step path =>
        cases step with
        | index i => rfl
        | key k =>
            rw [Json.at, Json.at]
            cases hu : valueOf ns k with
            | none =>
                have hnone : valueOf ms k = none := by
                  rw [← Option.not_isSome_iff_eq_none, ← hkeys, hu]
                  exact Bool.false_ne_true
                rw [hnone]
            | some u =>
                obtain ⟨t, ht⟩ := Option.isSome_iff_exists.mp ((hkeys k).mp (by rw [hu]; rfl))
                rw [ht]
                exact hvalues k u t hu ht path

/-- A tree that is no array and no object. -/
def Json.IsScalar : Json → Prop
  | .arr _ | .obj _ => False
  | _ => True

theorem Json.IsScalar.at_cons (h : t.IsScalar) (step : Step) (path : List Step) : t.at (step :: path) = none := by
  cases t with
  | arr xs => exact h.elim
  | obj ms => exact h.elim
  | _ => cases step <;> rfl

theorem same_scalar (hs : s.IsScalar) (ht : t.IsScalar) : Same s t ↔ s.node = t.node := by
  constructor
  · exact fun h => Option.some_injective _ (h [])
  · intro h path
    cases path with
    | nil => exact congrArg some h
    | cons step path => rw [hs.at_cons, ht.at_cons]

/-! ### What comes back as it was -/

/-- Words and strings of the language hold the value. -/
def Exact : Json → Prop
  | .null => True
  | .bool _ => False
  | .int n => -2 ^ 30 ≤ n ∧ n < 2 ^ 30
  | .real q => q = 0
  | .str s => 0 ∉ s
  | .arr _ => True
  | .obj ms => ∀ m ∈ ms, 0 ∉ m.1

/-- Every value in the tree is held; of members with the same key the last one counts. -/
def Representable (t : Json) : Prop := ∀ path u, t.at path = some u → Exact u

theorem representable_scalar (h : t.IsScalar) : Representable t ↔ Exact t := by
  constructor
  · exact fun hall => hall [] t (by cases t <;> rfl)
  · intro hexact path u hu
    cases path with
    | nil =>
        have heq : t = u := Option.some_injective _ ((by cases t <;> rfl : some t = t.at []).trans hu)
        exact heq ▸ hexact
    | cons step path =>
        rw [h.at_cons] at hu
        cases hu

theorem representable_arr : Representable (.arr xs) ↔ ∀ x ∈ xs, Representable x := by
  constructor
  · intro h x hx path u hu
    obtain ⟨i, hi, rfl⟩ := List.getElem_of_mem hx
    refine h (.index i :: path) u ?_
    rw [Json.at, List.getElem?_eq_getElem hi]
    exact hu
  · intro h path u hu
    cases path with
    | nil =>
        cases hu
        trivial
    | cons step path =>
        cases step with
        | key k => cases hu
        | index i =>
            rw [Json.at] at hu
            obtain ⟨x, hx, hu⟩ := Option.bind_eq_some_iff.mp hu
            exact h x (List.mem_of_getElem? hx) path u hu

theorem representable_obj : Representable (.obj ms) ↔
    (∀ m ∈ ms, 0 ∉ m.1) ∧ ∀ k t, valueOf ms k = some t → Representable t := by
  constructor
  · intro h
    refine ⟨h [] (.obj ms) rfl, fun k t ht path u hu => h (.key k :: path) u ?_⟩
    rw [Json.at, ht]
    exact hu
  · rintro ⟨hkeys, hvalues⟩ path u hu
    cases path with
    | nil =>
        cases hu
        exact hkeys
    | cons step path =>
        cases step with
        | index i => cases hu
        | key k =>
            rw [Json.at] at hu
            obtain ⟨t, ht, hu⟩ := Option.bind_eq_some_iff.mp hu
            exact hvalues k t ht path u hu

end Values

/-! ### The size of a tree -/

theorem Json.induct {motive : Json → Prop} (null : motive .null) (bool : ∀ b, motive (.bool b))
    (int : ∀ n, motive (.int n)) (real : ∀ q, motive (.real q)) (str : ∀ s, motive (.str s))
    (arr : ∀ xs, (∀ x ∈ xs, motive x) → motive (.arr xs))
    (obj : ∀ ms, (∀ m ∈ ms, motive m.2) → motive (.obj ms)) (t : Json) : motive t :=
  @Json.rec motive (fun xs => ∀ x ∈ xs, motive x) (fun ms => ∀ m ∈ ms, motive m.2) (fun m => motive m.2)
    null bool int real str arr obj
    (List.forall_mem_nil _) (fun _ _ hx hxs => List.forall_mem_cons.mpr ⟨hx, hxs⟩)
    (List.forall_mem_nil _) (fun _ _ hm hms => List.forall_mem_cons.mpr ⟨hm, hms⟩)
    (fun _ _ h => h) t

mutual

/-- An array and an object weigh 1, apart from what is in them. -/
def Json.weigh (scalar : ℕ) (str : Bytes → ℕ) : Json → ℕ
  | .null | .bool _ | .int _ | .real _ => scalar
  | .str s => str s
  | .arr xs => 1 + weighItems scalar str xs
  | .obj ms => 1 + weighMembers scalar str ms

def weighItems (scalar : ℕ) (str : Bytes → ℕ) : List Json → ℕ
  | [] => 0
  | x :: xs => x.weigh scalar str + weighItems scalar str xs

def weighMembers (scalar : ℕ) (str : Bytes → ℕ) : List (Bytes × Json) → ℕ
  | [] => 0
  | (k, t) :: ms => str k + t.weigh scalar str + weighMembers scalar str ms

end

/-- How many objects a tree becomes. -/
def Json.objects (t : Json) : ℕ := t.weigh 0 fun _ => 1

/-- No text of the tree is shorter: a string has a quote in front of it and its bytes take a byte each at least,
and every other value has a byte of its own. -/
def Json.size (t : Json) : ℕ := t.weigh 1 fun s => s.length + 1

abbrev itemsSize (xs : List Json) : ℕ := weighItems 1 (fun s => s.length + 1) xs

abbrev membersSize (ms : List (Bytes × Json)) : ℕ := weighMembers 1 (fun s => s.length + 1) ms

abbrev itemsObjects (xs : List Json) : ℕ := weighItems 0 (fun _ => 1) xs

abbrev membersObjects (ms : List (Bytes × Json)) : ℕ := weighMembers 0 (fun _ => 1) ms

theorem weigh_item_le {scalar : ℕ} {str : Bytes → ℕ} {x : Json} {xs : List Json} (h : x ∈ xs) :
    x.weigh scalar str ≤ weighItems scalar str xs := by
  induction xs with
  | nil => cases h
  | cons y ys ih =>
      rw [weighItems]
      rcases List.mem_cons.mp h with rfl | h
      · exact Nat.le_add_right _ _
      · exact (ih h).trans (Nat.le_add_left _ _)

theorem weigh_member_le {scalar : ℕ} {str : Bytes → ℕ} {m : Bytes × Json} {ms : List (Bytes × Json)} (h : m ∈ ms) :
    m.2.weigh scalar str ≤ weighMembers scalar str ms := by
  induction ms with
  | nil => cases h
  | cons n ns ih =>
      rw [weighMembers]
      rcases List.mem_cons.mp h with rfl | h
      · omega
      · exact (ih h).trans (Nat.le_add_left _ _)

theorem objects_le_size (t : Json) : t.objects ≤ t.size := by
  induction t using Json.induct with
  | null | bool | int | real => exact Nat.zero_le _
  | str s => exact Nat.le_add_left 1 _
  | arr xs ih =>
      have hitems : itemsObjects xs ≤ itemsSize xs := by
        induction xs with
        | nil => exact le_rfl
        | cons x xs ihs =>
            obtain ⟨hx, hxs⟩ := List.forall_mem_cons.mp ih
            rw [itemsObjects, itemsSize, weighItems, weighItems]
            exact Nat.add_le_add hx (ihs hxs)
      exact Nat.add_le_add_left hitems 1
  | obj ms ih =>
      have hmembers : membersObjects ms ≤ membersSize ms := by
        induction ms with
        | nil => exact le_rfl
        | cons m ms ihs =>
            obtain ⟨hm, hms⟩ := List.forall_mem_cons.mp ih
            rw [membersObjects, membersSize, weighMembers, weighMembers]
            exact Nat.add_le_add (Nat.add_le_add (Nat.le_add_left 1 _) hm) (ihs hms)
      exact Nat.add_le_add_left hmembers 1

theorem size_pos (t : Json) : 0 < t.size := by
  cases t with
  | null | bool | int | real => exact Nat.one_pos
  | str s => exact Nat.succ_pos _
  | arr xs | obj ms => exact Nat.lt_of_lt_of_le Nat.one_pos (Nat.le_add_right 1 _)

theorem length_le_itemsSize (xs : List Json) : xs.length ≤ itemsSize xs := by
  induction xs with
  | nil => exact le_rfl
  | cons x xs ih =>
      have hx := size_pos x
      rw [Json.size] at hx
      rw [itemsSize] at ih ⊢
      rw [weighItems, List.length_cons]
      omega

theorem length_le_membersSize (ms : List (Bytes × Json)) : ms.length ≤ membersSize ms := by
  induction ms with
  | nil => exact le_rfl
  | cons m ms ih =>
      rw [membersSize] at ih ⊢
      rw [weighMembers, List.length_cons]
      omega

/-! ### The heap -/

namespace Heap

variable {heap next last : Heap} {n made more : ℕ} {object : Object}

/-- The object with the number is there, with its content. -/
def Has (heap : Heap) (n : ℕ) (object : Object) : Prop := n < heap.count ∧ heap.objects n = some object

/-- Nothing stands where no object has been made yet. -/
def Fresh (heap : Heap) : Prop := ∀ n, heap.count ≤ n → heap.objects n = none

/-- `made` objects have come, and those that were there have stayed. -/
structure Grown (heap next : Heap) (made : ℕ) : Prop where
  count : next.count = heap.count + made
  below : ∀ n < heap.count, next.objects n = heap.objects n
  fresh : next.Fresh

theorem Grown.refl (h : heap.Fresh) : Grown heap heap 0 := ⟨rfl, fun _ _ => rfl, h⟩

theorem Grown.trans (h : Grown heap next made) (h' : Grown next last more) : Grown heap last (made + more) where
  count := by rw [h'.count, h.count, Nat.add_assoc]
  below n hn := (h'.below n (by rw [h.count]; omega)).trans (h.below n hn)
  fresh := h'.fresh

theorem Grown.has (h : Grown heap next made) (hn : heap.Has n object) : next.Has n object :=
  ⟨by rw [h.count]; exact Nat.lt_add_right _ hn.1, (h.below n hn.1).trans hn.2⟩

theorem reserve_fresh (h : heap.Fresh) : heap.reserve.Fresh := fun n hn => h n (Nat.le_of_succ_le hn)

/-- An object is written when those that are in it are there. -/
theorem Grown.write (object) (hgrown : Grown heap.reserve next made) :
    Grown heap (next.write heap.count object) (1 + made) where
  count := by
    show next.count = _
    rw [hgrown.count, reserve, Nat.add_assoc]
  below n hn := by
    show Function.update next.objects heap.count (some object) n = _
    rw [Function.update_of_ne hn.ne]
    exact hgrown.below n (Nat.lt_succ_of_lt hn)
  fresh n hn := by
    have hcount := hgrown.count
    have hn : next.count ≤ n := hn
    show Function.update next.objects heap.count (some object) n = _
    rw [Function.update_of_ne (by rw [reserve] at hcount; dsimp only at hcount; omega)]
    exact hgrown.fresh n hn

theorem Grown.written (object) (hgrown : Grown heap.reserve next made) :
    (next.write heap.count object).Has heap.count object := by
  refine ⟨?_, Function.update_self _ _ _⟩
  show heap.count < next.count
  rw [hgrown.count, reserve]
  dsimp only
  omega

/-- The objects inside stay. -/
theorem Grown.inside {inner : Object} (object) (h : heap.Fresh) (hgrown : Grown heap.reserve next made)
    (hn : next.Has n inner) :
    (next.write heap.count object).Has n inner := by
  refine ⟨hn.1, ?_⟩
  have hne : n ≠ heap.count := by
    rintro rfl
    have hnone : next.objects heap.count = none :=
      (hgrown.below _ (Nat.lt_succ_self _)).trans (h _ le_rfl)
    rw [hn.2] at hnone
    cases hnone
  show Function.update next.objects heap.count (some object) n = _
  rw [Function.update_of_ne hne, hn.2]

/-- `__visuall_get_header` finds every object by its address. -/
theorem find_has (M : Memory) (hcount : heap.count ≤ maxObjects) (h : heap.Has n object) :
    heap.find M (M.addr n) = some object := by
  have hfind : (List.range heap.count).find? (fun i => M.addr i = M.addr n) = some n := by
    cases hcase : (List.range heap.count).find? fun i => M.addr i = M.addr n with
    | none =>
        have hno := List.find?_eq_none.mp hcase n (List.mem_range.mpr h.1)
        exact absurd (decide_eq_true rfl) hno
    | some i =>
        have hi : i < heap.count := List.mem_range.mp (List.mem_of_find?_eq_some hcase)
        have heq : M.addr i = M.addr n := by simpa using List.find?_some hcase
        rw [M.inj i n (hi.trans_le hcount) (h.1.trans_le hcount) heq]
  rw [find, hfind]
  exact h.2

end Heap

/-! ### The first conversion -/

/-- The member that a dictionary has for a key: it is the last whose key has these bytes up to a NUL. -/
def memberFor (ms : List (Bytes × Json)) (key : CString) : Option Json := lastWith (fun k => cstr k = key.bytes) ms

/-- The word `w` is what the first conversion makes of the tree `t`. -/
inductive Conv (M : Memory) (heap : Heap) : Json → Int64 → Prop
  | null : Conv M heap .null 0
  | bool (b : Bool) : Conv M heap (.bool b) (if b then 3 else 1)
  | int (n : ℤ) : Conv M heap (.int n) (.ofInt (tagInt (getInt (.int n))))
  | real (q : ℚ) : Conv M heap (.real q) (.ofInt (tagInt (getInt (.real q))))
  | str {s : Bytes} {n : ℕ} {v : VisualString} (has : heap.Has n (.string v)) (bytes : v.bytes = cstr s) :
      Conv M heap (.str s) (M.addr n)
  | arr {xs : List Json} {n : ℕ} {list : VisualList Int64} (has : heap.Has n (.list list))
      (length : list.data.length = xs.length)
      (items : ∀ (i : ℕ) (x : Json) (w : Int64), xs[i]? = some x → list.data[i]? = some w → Conv M heap x w) :
      Conv M heap (.arr xs) (M.addr n)
  | obj {ms : List (Bytes × Json)} {n : ℕ} {dict : VisualDict} {map : DictMap} (has : heap.Has n (.dict dict))
      (represents : Represents dict map) (keys : ∀ key, key ∈ map ↔ (memberFor ms key).isSome)
      (values : ∀ key t w, memberFor ms key = some t → map.lookup key = some w → Conv M heap t w) :
      Conv M heap (.obj ms) (M.addr n)

section First

variable {M : Memory} {heap next : Heap} {t : Json} {w : Int64}

/-- A word keeps what it stands for while the objects stay. -/
theorem Conv.mono (h : Conv M heap t w) (hext : ∀ n object, heap.Has n object → next.Has n object) :
    Conv M next t w := by
  induction h with
  | null => exact .null
  | bool b => exact .bool b
  | int n => exact .int n
  | real q => exact .real q
  | str has bytes => exact .str (hext _ _ has) bytes
  | arr has length items ih => exact .arr (hext _ _ has) length ih
  | obj has represents keys values ih => exact .obj (hext _ _ has) represents keys ih

theorem dupStr_ok {s : Bytes} (h : Gc.headerSize + (s.length + 1) ≤ Gc.uint32Max) :
    ∃ v, dupStr s = .ok v ∧ v.bytes = cstr s := by
  have hlen : (cstr s).length ≤ s.length := (List.takeWhile_sublist _).length_le
  have hnul : 0 ∉ cstr s := fun hmem => by simpa using List.mem_takeWhile_imp hmem
  refine ⟨⟨⟨cstr s, hnul⟩, by show _ + ((cstr s).length + 1) ≤ _; omega⟩, ?_, rfl⟩
  rw [dupStr, strdup_ok ⟨⟨cstr s, hnul⟩, _⟩]
  rfl

/-- A dictionary with fewer than 2⁴⁰ keys takes one more. -/
theorem dictSet_ok {dict : VisualDict} {map : DictMap} (hrep : Represents dict map) (hlen : dict.length < 2 ^ 40)
    (key : CString) (value : Int64) : ∃ out, dictSet (fun _ => true) dict (some key) value = .ok out ∧
      Represents out (map.insert key value) := by
  rcases dictSet_represents (fun _ => true) hrep key value with ⟨msg, he, hx⟩ | hok
  · exfalso
    obtain ⟨_, hfalse, _⟩ | ⟨hcap, _⟩ := hx
    · cases hfalse
    · -- a table of that size is far from its load factor
      have hload : overLoaded dict.length dict.capacity = false := by
        rw [overLoaded, toDouble, if_pos (by omega)]
        refine decide_eq_false ?_
        norm_num [int64Max] at hcap
        omega
      obtain ⟨slot, hslot⟩ := dictFindSlot_isSome hrep key
      have hset : dictSet (fun _ => true) dict (some key) value = dictStore (fun _ => true) dict slot key value := by
        rw [dictSet, dictGrow, hload, if_neg Bool.false_ne_true, ok_bind, dictSlotForSet, hslot]
        rfl
      rw [hset, dictStore] at he
      split at he <;> cases he
  · exact hok

theorem length_insert {dict out : VisualDict} {map : DictMap} {key : CString} {value : Int64}
    (hrep : Represents dict map) (hout : Represents out (map.insert key value)) : out.length ≤ dict.length + 1 := by
  have hkeys : (map.insert key value).keys = insert key map.keys := by
    ext k
    rw [Finset.mem_insert, Finmap.mem_keys, Finmap.mem_keys, Finmap.mem_insert]
  calc out.length = (map.insert key value).keys.card := dictLen_eq hout
    _ ≤ map.keys.card + 1 := by rw [hkeys]; exact Finset.card_insert_le _ _
    _ = dict.length + 1 := by rw [← dictLen_eq hrep, dictLen]

variable (M)

/-- What is proved of each tree: its conversion returns, and makes the objects it needs. -/
def Converts (t : Json) : Prop := ∀ heap : Heap, heap.Fresh → Gc.headerSize + t.size ≤ Gc.uint32Max →
  ∃ w next, fromYyjson M t heap = .ok (w, next) ∧ heap.Grown next t.objects ∧ Conv M next t w

variable {M}

theorem fromItems_conv {xs : List Json} (hxs : ∀ x ∈ xs, Converts M x) (list : VisualList Int64)
    (hfresh : heap.Fresh) (hfit : Gc.headerSize + itemsSize xs ≤ Gc.uint32Max)
    (hlen : list.data.length + xs.length ≤ maxLength) : ∃ out next ws, fromItems M xs list heap = .ok (out, next) ∧
      out.data = list.data ++ ws ∧ heap.Grown next (itemsObjects xs) ∧ List.Forall₂ (Conv M next) xs ws := by
  induction xs generalizing list heap with
  | nil => exact ⟨list, heap, [], rfl, (List.append_nil _).symm, .refl hfresh, .nil⟩
  | cons x xs ih =>
      obtain ⟨hx, hxs⟩ := List.forall_mem_cons.mp hxs
      rw [itemsSize, weighItems] at hfit
      rw [List.length_cons] at hlen
      obtain ⟨w, heap₁, hw, hgrown, hconv⟩ := hx heap hfresh (by rw [Json.size]; omega)
      obtain ⟨list₁, hpush, hdata⟩ := listPush_ok list w (by omega)
      obtain ⟨out, next, ws, hrun, hout, hgrown', hconvs⟩ := ih hxs list₁ hgrown.fresh
        (by rw [itemsSize]; omega) (by rw [hdata, List.length_append, List.length_singleton]; omega)
      refine ⟨out, next, w :: ws, ?_, ?_, hgrown.trans hgrown', .cons ?_ hconvs⟩
      · rw [fromItems, hw, ok_bind]
        dsimp only
        rw [hpush]
        exact hrun
      · rw [hout, hdata, List.append_assoc, List.singleton_append]
      · exact hconv.mono fun _ _ => hgrown'.has

theorem fromMembers_conv {ms : List (Bytes × Json)} (hms : ∀ m ∈ ms, Converts M m.2) {dict : VisualDict}
    {map : DictMap} (hrep : Represents dict map) (hfresh : heap.Fresh)
    (hfit : Gc.headerSize + membersSize ms ≤ Gc.uint32Max) (hlen : dict.length + ms.length ≤ 2 ^ 40) :
    ∃ out next map', fromMembers M ms dict heap = .ok (out, next) ∧ Represents out map' ∧
      heap.Grown next (membersObjects ms) ∧
      ∀ key, (memberFor ms key = none → map'.lookup key = map.lookup key) ∧
        ∀ t, memberFor ms key = some t → ∃ w, map'.lookup key = some w ∧ Conv M next t w := by
  induction ms generalizing dict map heap with
  | nil => exact ⟨dict, heap, map, rfl, hrep, .refl hfresh, fun key => ⟨fun _ => rfl, fun t ht => by cases ht⟩⟩
  | cons m ms ih =>
      obtain ⟨k, t⟩ := m
      obtain ⟨hm, hms⟩ := List.forall_mem_cons.mp hms
      rw [membersSize, weighMembers] at hfit
      rw [List.length_cons] at hlen
      obtain ⟨v, hdup, hv⟩ := dupStr_ok (s := k) (by omega)
      have hkey : heap.Grown (heap.reserve.write heap.count (.string v)) (1 + 0) :=
        .write _ (.refl (Heap.reserve_fresh hfresh))
      obtain ⟨w, heap₁, hw, hgrown, hconv⟩ := hm _ hkey.fresh (by rw [Json.size]; dsimp only; omega)
      obtain ⟨dict₁, hset, hrep₁⟩ := dictSet_ok hrep (by omega) v.toCString w
      have hlen₁ := length_insert hrep hrep₁
      obtain ⟨out, next, map', hrun, hrep', hgrown', hall⟩ := ih hms hrep₁ hgrown.fresh
        (by rw [membersSize]; omega) (by omega)
      refine ⟨out, next, map', ?_, hrep', hkey.trans hgrown |>.trans hgrown', fun key => ?_⟩
      · rw [fromMembers, hdup, ok_bind, hw, ok_bind]
        dsimp only
        rw [hset]
        exact hrun
      · obtain ⟨hnone, hsome⟩ := hall key
        have hcons : memberFor ((k, t) :: ms) key =
            (memberFor ms key).or (if cstr k = key.bytes then some t else none) := by
          rw [memberFor, lastWith, memberFor]
          simp only [decide_eq_true_eq]
        rw [hcons]
        cases hlater : memberFor ms key with
        | some u =>
            rw [Option.some_or]
            refine ⟨fun h => (Option.some_ne_none _ h).elim, fun t' ht' => ?_⟩
            cases ht'
            exact hsome u hlater
        | none =>
            rw [Option.none_or]
            have heq : key = v.toCString ↔ cstr k = key.bytes := by
              rw [← hv]
              constructor
              · rintro rfl
                rfl
              · exact fun h => (CString.ext_bytes h).symm
            rw [hnone hlater]
            by_cases hk : cstr k = key.bytes
            · rw [if_pos hk, heq.mpr hk, Finmap.lookup_insert]
              refine ⟨fun h => (Option.some_ne_none _ h).elim, fun t' ht' => ?_⟩
              cases ht'
              exact ⟨w, rfl, hconv.mono fun _ _ => hgrown'.has⟩
            · rw [if_neg hk, Finmap.lookup_insert_of_ne _ (fun h => hk (heq.mp h))]
              exact ⟨fun _ => rfl, fun t' ht' => by cases ht'⟩

/-- The first conversion makes what the tree says. -/
theorem fromYyjson_conv (t : Json) : Converts M t := by
  induction t using Json.induct with
  | null => exact fun heap hfresh _ => ⟨0, heap, rfl, .refl hfresh, .null⟩
  | bool b => exact fun heap hfresh _ => ⟨_, heap, rfl, .refl hfresh, .bool b⟩
  | int n => exact fun heap hfresh _ => ⟨_, heap, rfl, .refl hfresh, .int n⟩
  | real q => exact fun heap hfresh _ => ⟨_, heap, rfl, .refl hfresh, .real q⟩
  | str s =>
      intro heap hfresh hfit
      obtain ⟨v, hdup, hv⟩ := dupStr_ok hfit
      have hgrown := Heap.Grown.refl (Heap.reserve_fresh hfresh)
      refine ⟨M.addr heap.count, _, ?_, .write (.string v) hgrown, .str (Heap.Grown.written _ hgrown) hv⟩
      rw [fromYyjson, hdup]
      rfl
  | arr xs ih =>
      intro heap hfresh hfit
      have hfit : Gc.headerSize + (1 + itemsSize xs) ≤ Gc.uint32Max := hfit
      have hlen := length_le_itemsSize xs
      obtain ⟨out, next, ws, hrun, hout, hgrown, hconvs⟩ := fromItems_conv ih (listNew Int64)
        (Heap.reserve_fresh hfresh) (by omega) (by
          norm_num [listNew, maxLength, Gc.uint32Max] at hfit ⊢
          omega)
      have hdata : out.data = ws := hout
      refine ⟨M.addr heap.count, _, ?_, .write (.list out) hgrown, .arr (Heap.Grown.written _ hgrown) ?_ fun i x w hx hw => ?_⟩
      · rw [fromYyjson, hrun]
        rfl
      · rw [hdata, hconvs.length_eq]
      · rw [hdata] at hw
        obtain ⟨hi, rfl⟩ := List.getElem?_eq_some_iff.mp hx
        obtain ⟨hi', rfl⟩ := List.getElem?_eq_some_iff.mp hw
        exact (hconvs.get hi hi').mono fun _ _ => Heap.Grown.inside _ hfresh hgrown
  | obj ms ih =>
      intro heap hfresh hfit
      have hfit : Gc.headerSize + (1 + membersSize ms) ≤ Gc.uint32Max := hfit
      have hlen := length_le_membersSize ms
      obtain ⟨hfalse, _⟩ | ⟨dict, hnew, hrep⟩ := dictNew_represents fun _ => true
      · cases hfalse
      obtain ⟨out, next, map, hrun, hrep', hgrown, hall⟩ := fromMembers_conv ih hrep
        (Heap.reserve_fresh hfresh) (by omega) (by
          have hzero : dict.length = 0 := dictLen_eq hrep
          norm_num [Gc.uint32Max] at hfit
          omega)
      refine ⟨M.addr heap.count, _, ?_, .write (.dict out) hgrown, .obj (Heap.Grown.written _ hgrown) hrep' (fun key => ?_) ?_⟩
      · rw [fromYyjson, hnew, show Except.mapError JsonStop.ofDictStop (.ok dict) = .ok dict from rfl, ok_bind, hrun]
        rfl
      · obtain ⟨hnone, hsome⟩ := hall key
        rw [Finmap.mem_iff]
        cases hcase : memberFor ms key with
        | none =>
            rw [hnone hcase, Finmap.lookup_empty]
            simp
        | some t =>
            obtain ⟨w, hw, _⟩ := hsome t hcase
            exact iff_of_true ⟨w, hw⟩ rfl
      · intro key t w ht hw
        obtain ⟨w', hw', hconv⟩ := (hall key).2 t ht
        rw [hw] at hw'
        cases hw'
        exact hconv.mono fun _ _ => Heap.Grown.inside _ hfresh hgrown

end First

/-! ### The second conversion -/

section Second

variable {M : Memory} {heap : Heap} {t : Json} {w : Int64}

theorem toInt_tagInt (i : ℤ) : (Int64.ofInt (tagInt i)).toInt = tagInt i := by
  have hlow := Int.le_bmod (x := i * 2) (m := 2 ^ 32) (by norm_num)
  have hhigh := Int.bmod_lt (x := i * 2) (m := 2 ^ 32) (by norm_num)
  refine Int64.toInt_ofInt_of_le ?_ ?_ <;> rw [tagInt] <;> norm_num at hlow hhigh ⊢ <;> omega

theorem tagInt_odd (i : ℤ) : tagInt i % 2 = 1 := by
  rw [tagInt, Int.bmod_def]
  split_ifs <;> omega

theorem tagInt_half (n : ℤ) : tagInt (getInt (.int n)) / 2 = n ↔ -2 ^ 30 ≤ n ∧ n < 2 ^ 30 := by
  rw [getInt, tagInt, Int.bmod_def, Int.bmod_def]
  split_ifs <;> omega

theorem toYyjson_int (fuel : ℕ) (i : ℤ) :
    toYyjson M heap (fuel + 1) (.ofInt (tagInt i)) = .ok (.int (tagInt i / 2)) := by
  rw [toYyjson, toInt_tagInt, if_pos (tagInt_odd i)]

/-- At the address of an object, the second conversion looks at the object. -/
theorem toYyjson_object {n : ℕ} {object : Object} (fuel : ℕ) (hcount : heap.count ≤ maxObjects)
    (has : heap.Has n object) : toYyjson M heap (fuel + 1) (M.addr n) = match object with
      | .string s => .ok (.str s.bytes)
      | .list l => do return .arr (← l.data.mapM (toYyjson M heap fuel))
      | .dict d => do return .obj (← (usedPairs d).mapM fun p => do return (p.1.bytes, ← toYyjson M heap fuel p.2)) := by
  have heven : ¬ (M.addr n).toInt % 2 = 1 := by
    rw [M.even]
    exact zero_ne_one
  rw [toYyjson, if_neg heven, if_neg (M.ne_zero n), Heap.find_has M hcount has]
  cases object <;> rfl

theorem cstr_eq_iff {s : Bytes} : cstr s = s ↔ 0 ∉ s := by
  rw [cstr, List.takeWhile_eq_self_iff]
  constructor
  · intro h hmem
    simpa using h 0 hmem
  · intro h b hb
    exact decide_eq_true fun hzero : b = 0 => h (hzero ▸ hb)

theorem mem_usedPairs {dict : VisualDict} {map : DictMap} (hrep : Represents dict map) {key : CString} {w : Int64} :
    (key, w) ∈ usedPairs dict ↔ map.lookup key = some w := by
  rw [usedPairs, List.mem_filterMap]
  constructor
  · rintro ⟨e, he, hpair⟩
    split_ifs at hpair with hused
    obtain ⟨s, key', hkey', hholds⟩ := used_entry_keyed hrep he hused
    rw [hkey'] at hpair
    cases hpair
    exact (hrep.content key e.value).mpr ⟨s, hholds⟩
  · intro hlookup
    obtain ⟨s, hs, he⟩ := (hrep.content key w).mp hlookup
    rw [entryAt_of_lt hs] at he
    refine ⟨dict.entries[s], List.getElem_mem hs, ?_⟩
    rw [he]
    rfl

theorem exists_of_mem {α β : Type} {R : α → β → Prop} {as : List α} {bs : List β} {a : α} (h : List.Forall₂ R as bs)
    (ha : a ∈ as) : ∃ b ∈ bs, R a b := by
  obtain ⟨i, hi, rfl⟩ := List.getElem_of_mem ha
  have hi' : i < bs.length := h.length_eq ▸ hi
  exact ⟨bs[i], List.getElem_mem hi', h.get hi hi'⟩

theorem same_int {n m : ℤ} : Same (.int n) (.int m) ↔ n = m := by
  rw [same_scalar (s := .int n) (t := .int m) trivial trivial, Json.node, Json.node, Node.number.injEq, Int.cast_inj]

theorem same_str {s s' : Bytes} : Same (.str s) (.str s') ↔ s = s' := by
  rw [same_scalar (s := .str s) (t := .str s') trivial trivial, Json.node, Json.node, Node.str.injEq]

theorem memberFor_eq {ms : List (Bytes × Json)} (h : ∀ m ∈ ms, 0 ∉ m.1) (key : CString) :
    memberFor ms key = valueOf ms key.bytes :=
  lastWith_congr fun m hm => by rw [cstr_eq_iff.mpr (h m hm)]

/-- The keys that the second conversion writes are those of the dictionary. -/
theorem converted_members {dict : VisualDict} {map : DictMap} (hrep : Represents dict map) {f : Int64 → Except JsonStop Json}
    {ns : List (Bytes × Json)}
    (hns : List.Forall₂ (fun p n => (do return (p.1.bytes, ← f p.2)) = Except.ok n) (usedPairs dict) ns) :
    (∀ k, (valueOf ns k).isSome ↔ ∃ key ∈ map, key.bytes = k) ∧
      ∀ key u, valueOf ns key.bytes = some u → ∃ w, map.lookup key = some w ∧ f w = .ok u := by
  constructor
  · intro k
    constructor
    · intro hsome
      obtain ⟨u, hu⟩ := Option.isSome_iff_exists.mp hsome
      obtain ⟨k', hmem, hk'⟩ := lastWith_mem hu
      obtain ⟨⟨key, w⟩, hpair, hn⟩ := exists_of_mem hns.flip hmem
      obtain ⟨_, _, heq⟩ := ok_of_bind hn
      cases heq
      exact ⟨key, Finmap.mem_iff.mpr ⟨w, (mem_usedPairs hrep).mp hpair⟩, of_decide_eq_true hk'⟩
    · rintro ⟨key, hkey, rfl⟩
      obtain ⟨w, hw⟩ := Finmap.mem_iff.mp hkey
      obtain ⟨⟨k, u⟩, hmem, hn⟩ := exists_of_mem hns ((mem_usedPairs hrep).mpr hw)
      obtain ⟨_, _, heq⟩ := ok_of_bind hn
      cases heq
      exact lastWith_isSome hmem (decide_eq_true rfl)
  · intro key u hu
    obtain ⟨k, hmem, hk⟩ := lastWith_mem hu
    obtain ⟨⟨key', w⟩, hpair, hn⟩ := exists_of_mem hns.flip hmem
    obtain ⟨u', hu', heq⟩ := ok_of_bind hn
    cases heq
    have hkey : key' = key := CString.ext_bytes (of_decide_eq_true hk)
    exact ⟨w, hkey ▸ (mem_usedPairs hrep).mp hpair, hu'⟩

/-- An array comes back when its items do. -/
theorem same_items {xs ys : List Json} (hlen : ys.length = xs.length)
    (hitems : ∀ (i : ℕ) (y x : Json), ys[i]? = some y → xs[i]? = some x → (Same y x ↔ Representable x)) :
    Same (.arr ys) (.arr xs) ↔ Representable (.arr xs) := by
  rw [same_arr, representable_arr]
  constructor
  · rintro ⟨_, hsame⟩ x hx
    obtain ⟨i, hi, rfl⟩ := List.getElem_of_mem hx
    have hy := List.getElem?_eq_getElem (hlen ▸ hi)
    have hx := List.getElem?_eq_getElem hi
    exact (hitems i _ _ hy hx).mp (hsame i _ _ hy hx)
  · exact fun hrep => ⟨hlen, fun i y x hy hx => (hitems i y x hy hx).mpr (hrep x (List.mem_of_getElem? hx))⟩

/-- An object comes back when no key is cut off at a NUL and its values come back. -/
theorem same_members {ms ns : List (Bytes × Json)} {map : DictMap}
    (hkeys : ∀ k, (valueOf ns k).isSome ↔ ∃ key ∈ map, key.bytes = k) (keys : ∀ key, key ∈ map ↔ (memberFor ms key).isSome)
    (hboth : (∀ m ∈ ms, 0 ∉ m.1) → ∀ key u t, valueOf ns (CString.bytes key) = some u →
      valueOf ms key.bytes = some t → (Same u t ↔ Representable t)) :
    Same (.obj ns) (.obj ms) ↔ Representable (.obj ms) := by
  rw [same_obj, representable_obj]
  constructor
  · rintro ⟨hsome, hsame⟩
    have hnul : ∀ m ∈ ms, 0 ∉ m.1 := by
      intro m hm
      have hvalue : (valueOf ms m.1).isSome := lastWith_isSome hm (decide_eq_true rfl)
      obtain ⟨key, _, hkey⟩ := (hkeys m.1).mp ((hsome m.1).mpr hvalue)
      exact hkey ▸ key.noNul
    refine ⟨hnul, fun k t ht => ?_⟩
    obtain ⟨u, hu⟩ := Option.isSome_iff_exists.mp ((hsome k).mpr (Option.isSome_of_eq_some ht))
    obtain ⟨key, _, rfl⟩ := (hkeys k).mp (Option.isSome_of_eq_some hu)
    exact (hboth hnul key u t hu ht).mp (hsame key.bytes u t hu ht)
  · rintro ⟨hnul, hvalue⟩
    refine ⟨fun k => ?_, fun k u t hu ht => ?_⟩
    · rw [hkeys]
      constructor
      · rintro ⟨key, hkey, rfl⟩
        rw [← memberFor_eq hnul]
        exact (keys key).mp hkey
      · intro hk
        obtain ⟨t, ht⟩ := Option.isSome_iff_exists.mp hk
        obtain ⟨k', hmem, hk'⟩ := lastWith_mem ht
        have hk' : k' = k := of_decide_eq_true hk'
        refine ⟨⟨k, hk' ▸ hnul _ hmem⟩, (keys _).mpr ?_, rfl⟩
        rw [memberFor_eq hnul]
        exact hk
    · obtain ⟨key, _, rfl⟩ := (hkeys k).mp (Option.isSome_of_eq_some hu)
      exact (hboth hnul key u t hu ht).mpr (hvalue key.bytes t ht)

/-- The second conversion returns, and it returns the same value just for the representable trees. -/
theorem toYyjson_conv (h : Conv M heap t w) (hcount : heap.count ≤ maxObjects) {fuel : ℕ} (hfuel : t.objects < fuel) :
    ∃ out, toYyjson M heap fuel w = .ok out ∧ (Same out t ↔ Representable t) := by
  induction h generalizing fuel with
  | null =>
      obtain ⟨fuel, rfl⟩ : ∃ f, fuel = f + 1 := ⟨fuel - 1, by omega⟩
      refine ⟨.null, rfl, iff_of_true (fun _ => rfl) ?_⟩
      rw [representable_scalar (t := .null) trivial]
      trivial
  | bool b =>
      obtain ⟨fuel, rfl⟩ : ∃ f, fuel = f + 1 := ⟨fuel - 1, by omega⟩
      have hodd : toYyjson M heap (fuel + 1) (if b then 3 else 1) = .ok (.int (if b then 1 else 0)) := by
        cases b <;> rfl
      refine ⟨_, hodd, iff_of_false (fun hsame => ?_) fun hrep => ?_⟩
      · cases (same_scalar (s := .int _) (t := .bool b) trivial trivial).mp hsame
      · exact (representable_scalar (t := .bool b) trivial).mp hrep
  | int n =>
      obtain ⟨fuel, rfl⟩ : ∃ f, fuel = f + 1 := ⟨fuel - 1, by omega⟩
      refine ⟨_, toYyjson_int fuel _, ?_⟩
      rw [same_int, tagInt_half, representable_scalar (t := .int n) trivial, Exact]
  | real q =>
      obtain ⟨fuel, rfl⟩ : ∃ f, fuel = f + 1 := ⟨fuel - 1, by omega⟩
      refine ⟨_, toYyjson_int fuel _, ?_⟩
      have hzero : tagInt (getInt (.real q)) / 2 = 0 := rfl
      rw [hzero, same_scalar (s := .int 0) (t := .real q) trivial trivial, Json.node, Json.node, Node.number.injEq,
        representable_scalar (t := .real q) trivial, Exact, Int.cast_zero]
      exact eq_comm
  | @str s n v has hbytes =>
      obtain ⟨fuel, rfl⟩ : ∃ f, fuel = f + 1 := ⟨fuel - 1, by omega⟩
      refine ⟨_, toYyjson_object fuel hcount has, ?_⟩
      rw [hbytes, same_str, cstr_eq_iff, representable_scalar (t := .str s) trivial, Exact]
  | @arr xs n list has hlen items ih =>
      obtain ⟨fuel, rfl⟩ : ∃ f, fuel = f + 1 := ⟨fuel - 1, by omega⟩
      have hfuel : ∀ x ∈ xs, x.objects < fuel := by
        intro x hx
        have hle : x.objects ≤ itemsObjects xs := weigh_item_le hx
        have hfuel : 1 + itemsObjects xs < fuel + 1 := hfuel
        omega
      have hconverts : ∀ w ∈ list.data, ∃ y, toYyjson M heap fuel w = .ok y := by
        intro w hw
        obtain ⟨i, hi, rfl⟩ := List.getElem_of_mem hw
        have hx := List.getElem?_eq_getElem (hlen ▸ hi)
        obtain ⟨y, hy, _⟩ := ih i _ _ hx (List.getElem?_eq_getElem hi) (hfuel _ (List.getElem_mem _))
        exact ⟨y, hy⟩
      obtain ⟨ys, hys, hall⟩ := mapM_ok hconverts
      have hitems : ∀ (i : ℕ) (y x : Json), ys[i]? = some y → xs[i]? = some x → (Same y x ↔ Representable x) := by
        intro i y x hy hx
        obtain ⟨hi, rfl⟩ := List.getElem?_eq_some_iff.mp hy
        have hi' : i < list.data.length := hall.length_eq ▸ hi
        obtain ⟨y', hy', hiff⟩ := ih i x _ hx (List.getElem?_eq_getElem hi') (hfuel x (List.mem_of_getElem? hx))
        have heq := hall.get hi' hi
        rw [List.get_eq_getElem, List.get_eq_getElem] at heq
        rw [heq] at hy'
        cases hy'
        exact hiff
      refine ⟨.arr ys, ?_, ?_⟩
      · rw [toYyjson_object fuel hcount has]
        dsimp only
        rw [hys]
        rfl
      · exact same_items (hall.length_eq.symm.trans hlen) hitems
  | @obj ms n dict map has hrep keys values ih =>
      obtain ⟨fuel, rfl⟩ : ∃ f, fuel = f + 1 := ⟨fuel - 1, by omega⟩
      have hfuel : ∀ key t, memberFor ms key = some t → t.objects < fuel := by
        intro key t ht
        obtain ⟨k, hmem, _⟩ := lastWith_mem ht
        have hle : t.objects ≤ membersObjects ms := weigh_member_le hmem
        have hfuel : 1 + membersObjects ms < fuel + 1 := hfuel
        omega
      have hmember : ∀ key w, map.lookup key = some w → ∃ t, memberFor ms key = some t := by
        intro key w hw
        exact Option.isSome_iff_exists.mp ((keys key).mp (Finmap.mem_iff.mpr ⟨w, hw⟩))
      have hconverts : ∀ p ∈ usedPairs dict, ∃ m : Bytes × Json,
          (do return (p.1.bytes, ← toYyjson M heap fuel p.2) : Except JsonStop (Bytes × Json)) = .ok m := by
        intro p hp
        have hw := (mem_usedPairs hrep).mp hp
        obtain ⟨t, ht⟩ := hmember p.1 p.2 hw
        obtain ⟨y, hy, _⟩ := ih p.1 t p.2 ht hw (hfuel p.1 t ht)
        exact ⟨(p.1.bytes, y), by rw [hy]; rfl⟩
      obtain ⟨ns, hns, hall⟩ := mapM_ok hconverts
      obtain ⟨hkeys, hvalues⟩ := converted_members hrep hall
      have hboth : (∀ m ∈ ms, 0 ∉ m.1) → ∀ key u t, valueOf ns (CString.bytes key) = some u →
          valueOf ms key.bytes = some t → (Same u t ↔ Representable t) := by
        intro hnul key u t hu ht
        rw [← memberFor_eq hnul] at ht
        obtain ⟨w, hw, hconv⟩ := hvalues key u hu
        obtain ⟨u', hu', hiff⟩ := ih key t w ht hw (hfuel key t ht)
        rw [hconv] at hu'
        cases hu'
        exact hiff
      refine ⟨.obj ns, ?_, ?_⟩
      · rw [toYyjson_object fuel hcount has]
        dsimp only
        rw [hns]
        rfl
      · exact same_members hkeys keys hboth

/-- Both conversions, one behind the other. -/
theorem convert_iff (M : Memory) (hfit : Gc.headerSize + t.size ≤ Gc.uint32Max) :
    ∃ out, convert M t = .ok out ∧ (Same out t ↔ Representable t) := by
  obtain ⟨w, heap, hw, hgrown, hconv⟩ := fromYyjson_conv (M := M) t {} (fun _ _ => rfl) hfit
  have hcount : heap.count = t.objects := hgrown.count.trans (Nat.zero_add _)
  have hle := objects_le_size t
  obtain ⟨out, hout, hiff⟩ := toYyjson_conv hconv (by
    rw [hcount, maxObjects]
    norm_num [Gc.uint32Max] at hfit ⊢
    omega) (Nat.lt_succ_of_le hcount.ge)
  refine ⟨out, ?_, hiff⟩
  rw [convert, hw]
  exact hout

end Second

/-! ### The round trip of a text -/

section RoundTrip

variable {Y : Yyjson} {M : Memory} {s : Bytes} {t out : Json}

theorem Same.symm (h : Same out t) : Same t out := fun path => (h path).symm

theorem Same.trans {u : Json} (h : Same out t) (h' : Same t u) : Same out u := fun path => (h path).trans (h' path)

/-- A copy has the bytes up to the first NUL. -/
theorem dupStr_bytes {v : VisualString} (h : dupStr s = .ok v) : v.bytes = cstr s := by
  have hstrdup : strdup (cstr s) = .ok v := by
    rw [dupStr] at h
    cases hcase : strdup (cstr s) with
    | error stop =>
        rw [hcase] at h
        cases h
    | ok v' =>
        rw [hcase] at h
        exact congrArg _ (Except.ok.inj h)
  obtain ⟨b, hb, _⟩ := ok_of_bind hstrdup
  have hnul : 0 ∉ cstr s := fun hmem => by simpa using List.mem_takeWhile_imp hmem
  have hsize := b.allocated
  rw [(alloc_size hb).1] at hsize
  have hcopy := strdup_ok ⟨⟨cstr s, hnul⟩, hsize⟩
  rw [hcopy] at hstrdup
  cases hstrdup
  rfl

/-- The text that comes back is a copy of what yyjson writes. -/
theorem jsonRoundTrip_eq {text : VisualString} (hread : Y.read text.bytes = some t) (hout : convert M t = .ok out)
    (hwrite : Y.write out = some s) : jsonRoundTrip Y M text = (do return some (← dupStr s)) := by
  obtain ⟨⟨w, heap⟩, hw, hback⟩ := ok_of_bind hout
  have hparse : jsonParse Y M (some text) = .ok (w, heap) := by
    rw [jsonParse, hread]
    exact hw
  have hback : toYyjson M heap (heap.count + 1) w = .ok out := hback
  rw [jsonRoundTrip, hparse, ok_bind]
  dsimp only
  rw [jsonStringify, hback, ok_bind, hwrite]

/-- The text that comes back from `__visuall_json_stringify(__visuall_json_parse(text))` denotes the same value just
when there is no boolean in it, every number is an integer of 31 bits and no string has a NUL in it.  Of yyjson it is
used that no text is shorter than the values in it, and that it writes the tree it is given as a text without a NUL
that denotes the same value, and writes no longer text than another of the value. -/
theorem json_roundtrip_iff (Y : Yyjson) (M : Memory) (text : VisualString) (t : Json)
    (hread : Y.read text.bytes = some t) (hsize : t.size ≤ text.bytes.length)
    (hwrite : ∀ out, convert M t = .ok out → ∃ s, Y.write out = some s ∧ 0 ∉ s ∧
      (∃ u, Y.read s = some u ∧ Same u out) ∧ (Same out t → s.length ≤ text.bytes.length)) :
    (∃ out, jsonRoundTrip Y M text = .ok (some out) ∧ ∃ u, Y.read out.bytes = some u ∧ Same u t) ↔ Representable t := by
  have halloc := text.allocated
  obtain ⟨out, hout, hiff⟩ := convert_iff (t := t) M (by omega)
  obtain ⟨s, hs, hnul, ⟨u, hu, hsame⟩, hshort⟩ := hwrite out hout
  rw [jsonRoundTrip_eq hread hout hs, ← hiff]
  constructor
  · rintro ⟨v, hv, u', hu', hsame'⟩
    obtain ⟨v', hdup, heq⟩ := ok_of_bind hv
    cases heq
    rw [dupStr_bytes hdup, cstr_eq_iff.mpr hnul, hu] at hu'
    cases hu'
    exact hsame.symm.trans hsame'
  · intro hback
    have hlen := hshort hback
    obtain ⟨v, hdup, hv⟩ := dupStr_ok (s := s) (by omega)
    refine ⟨v, by rw [hdup]; rfl, u, ?_, hsame.trans hback⟩
    rw [hv, cstr_eq_iff.mpr hnul]
    exact hu

theorem toInt_address (n : ℕ) : (Int64.ofInt (if n < maxObjects then 16 * (n + 1) else 16)).toInt =
    if n < maxObjects then 16 * (n + 1 : ℤ) else 16 := by
  refine Int64.toInt_ofInt_of_le ?_ ?_ <;> split <;> rename_i h <;> norm_num [maxObjects] at h ⊢ <;> omega

/-- Every object has 16 bytes. -/
def sampleMemory : Memory where
  addr n := .ofInt (if n < maxObjects then 16 * (n + 1) else 16)
  even n := by
    rw [toInt_address]
    split <;> omega
  ne_zero n h := by
    have hzero := toInt_address n
    rw [h, Int64.toInt_zero] at hzero
    split at hzero <;> omega
  inj m n hm hn h := by
    have heq := congrArg Int64.toInt h
    rw [toInt_address, toInt_address, if_pos hm, if_pos hn] at heq
    omega

/-- The part of yyjson that the texts `[7]`, `true` and `1` need. -/
def sampleYyjson : Yyjson where
  read s := if s = [91, 55, 93] then some (.arr [.int 7]) else if s = [116, 114, 117, 101] then some (.bool true)
    else if s = [49] then some (.int 1) else none
  write
    | .arr [.int 7] => some [91, 55, 93]
    | .int 1 => some [49]
    | _ => none

theorem json_roundtrip_iff_seven : (∃ out, jsonRoundTrip sampleYyjson sampleMemory ⟨⟨[91, 55, 93], by decide⟩, by decide⟩ =
    .ok (some out) ∧ ∃ u, sampleYyjson.read out.bytes = some u ∧ Same u (.arr [.int 7])) ↔ Representable (.arr [.int 7]) :=
  json_roundtrip_iff sampleYyjson sampleMemory ⟨⟨[91, 55, 93], by decide⟩, by decide⟩ (.arr [.int 7]) rfl (by decide)
    fun out hout => by
      cases (Except.ok.inj hout : Json.arr [.int 7] = out)
      exact ⟨[91, 55, 93], rfl, by decide, ⟨_, rfl, fun _ => rfl⟩, fun _ => le_rfl⟩

/-- `true` comes back as `1`. -/
theorem json_boolean : sampleYyjson.read [116, 114, 117, 101] = some (.bool true) ∧
    (∃ out, jsonRoundTrip sampleYyjson sampleMemory ⟨⟨[116, 114, 117, 101], by decide⟩, by decide⟩ = .ok (some out) ∧
      sampleYyjson.read out.bytes = some (.int 1)) ∧ ¬ Same (.int 1) (.bool true) := by
  refine ⟨rfl, ⟨⟨⟨[49], by decide⟩, by decide⟩, ?_, rfl⟩, fun hsame => ?_⟩
  · exact (jsonRoundTrip_eq (t := .bool true) (s := [49]) rfl (show _ = Except.ok (.int 1) from rfl) rfl).trans rfl
  · cases (same_scalar (s := .int 1) (t := .bool true) trivial trivial).mp hsame

end RoundTrip

end Visuall.Runtime
