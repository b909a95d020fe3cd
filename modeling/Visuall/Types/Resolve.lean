import Visuall.Lib.Split

/-!
# Resolving type names

`TypeChecker::resolveTypeName` reads the string of an annotation back: it looks for a few
characters, cuts the string there, and resolves the pieces.

* `Ty` — the types;
* `resolveStep` — one call, over what the calls on the pieces give;
* `resolveTypeName`, `resolveTypeName_eq` — the recursion, which always ends.
-/

namespace Visuall.Types

/-! ### Names the checker knows -/

def intName : List Char := ['i', 'n', 't']

def floatName : List Char := ['f', 'l', 'o', 'a', 't']

def strName : List Char := ['s', 't', 'r']

def boolName : List Char := ['b', 'o', 'o', 'l']

def voidName : List Char := ['v', 'o', 'i', 'd']

def nullName : List Char := ['n', 'u', 'l', 'l']

def listName : List Char := ['l', 'i', 's', 't']

def dictName : List Char := ['d', 'i', 'c', 't']

def tupleName : List Char := ['t', 'u', 'p', 'l', 'e']

def fnTypeName : List Char := ['<', 'f', 'n', '_', 't', 'y', 'p', 'e', '>']

/-- The types of `TypeNode`. -/
inductive Ty where
  | int | float | str | bool | void | null | unknown
  | list (elem : Ty)
  | dict (key value : Ty)
  | tuple (elems : List Ty)
  | func (name : List Char) (ret : Ty) (params : List Ty)
  | cls (name : List Char)
  | interface (name : List Char)
  | typeVar (name : List Char)
  | union (members : List Ty)
  | chan (elem : Ty)

/-- The names in scope where a type is resolved: `currentTypeParams_` and `interfaceTable_`. -/
structure TypeScope where
  typeParams : List (List Char)
  interfaces : List (List Char)

section Resolve

variable (scope : TypeScope)

/-- The part of `resolveTypeName` that looks a whole name up. -/
def resolveName (name : List Char) : Ty :=
  if name ∈ scope.typeParams then .typeVar name
  else if name = intName then .int
  else if name = floatName then .float
  else if name = strName then .str
  else if name = boolName then .bool
  else if name = voidName then .void
  else if name = nullName then .null
  else if name = listName then .list .unknown
  else if name = dictName then .dict .unknown .unknown
  else if name = tupleName then .tuple []
  else if name ∈ scope.interfaces then .interface name
  else .cls name

end Resolve

/-! ### Cutting strings -/

def isOpen (c : Char) : Bool := c = '[' || c = '('

def isClose (c : Char) : Bool := c = ']' || c = ')'

def isBlank (c : Char) : Bool := c = ' ' || c = '\t'

/-- Trims blanks; a piece of blanks only stays as it is. -/
def trimPart (part : List Char) : List Char :=
  if part.all isBlank then part
  else (((part.dropWhile isBlank).reverse).dropWhile isBlank).reverse

/-- `splitAtTopLevelCommas`. -/
def splitAtTopLevelCommas (s : List Char) : List (List Char) :=
  ((splitTop isOpen isClose ',' (s ++ [',']) [] 0).map trimPart).filter (· ≠ [])

/-- `name.substr(pos, len)`. -/
def substr (name : List Char) (pos len : ℕ) : List Char := (name.drop pos).take len

/-- The parameters and the result of a function type `(…)->…`. -/
def functionParts (name : List Char) : Option (List Char × List Char) :=
  match name with
  | '(' :: _ =>
      (find [')', '-', '>'] name).map fun arrowPos =>
        (substr name 1 (arrowPos - 1), name.drop (arrowPos + 3))
  | _ => none

/-! ### The recursion -/

section Resolve

variable (scope : TypeScope) (resolve : List Char → Ty)

/-- `base[inner]`. -/
def resolveGeneric (base inner : List Char) : Ty :=
  if base = listName then .list (resolve inner)
  else if base = dictName then
    match splitAtTopLevelCommas inner with
    | [key, value] => .dict (resolve key) (resolve value)
    | _ => .cls base
  else if base = tupleName then .tuple ((splitAtTopLevelCommas inner).map resolve)
  else .cls base

/-- A name without `|` that is no channel and no function. -/
def resolveBase (name : List Char) : Ty :=
  match find ['['] name with
  | some bracketPos =>
      match rfindChar ']' name with
      | some closeBracket =>
          if bracketPos < closeBracket then
            resolveGeneric resolve (name.take bracketPos)
              (substr name (bracketPos + 1) (closeBracket - bracketPos - 1))
          else .cls (name.take bracketPos)
      | none => .cls (name.take bracketPos)
  | none => resolveName scope name

/-- One call of `resolveTypeName`, with `resolve` for the calls it makes. -/
def resolveStep (name : List Char) : Ty :=
  if ['c', 'h', 'a', 'n', '['] <+: name ∧ name.getLast? = some ']' then
    .chan (resolve (substr name 5 (name.length - 5 - 1)))
  else
    match functionParts name with
    | some (paramPart, retPart) =>
        .func fnTypeName (resolve retPart) ((splitAll ',' paramPart).map resolve)
    | none =>
        if '|' ∈ name then .union ((splitAll '|' name).map resolve)
        else resolveBase scope resolve name

end Resolve

/-- The calls of `resolveTypeName`, `fuel` deep. -/
def resolveFuel (scope : TypeScope) : ℕ → List Char → Ty
  | 0, _ => .unknown
  | fuel + 1, name => resolveStep scope (resolveFuel scope fuel) name

/-- `TypeChecker::resolveTypeName`: every call is on a shorter string. -/
def resolveTypeName (scope : TypeScope) (name : List Char) : Ty :=
  resolveFuel scope (name.length + 1) name

/-! ### Every call is on a shorter string -/

theorem length_of_mem_splitTop {opens closes : Char → Bool} {sep : Char} {s cur m : List Char}
    {d : ℤ} (hm : m ∈ splitTop opens closes sep s cur d) : m.length < cur.length + s.length := by
  induction s generalizing cur d with
  | nil => exact absurd hm List.not_mem_nil
  | cons a s ih =>
      have hgrow : ∀ {d}, m ∈ splitTop opens closes sep s (cur ++ [a]) d →
          m.length < cur.length + (a :: s).length := by
        intro d h
        have := ih h
        simp only [List.length_append, List.length_cons, List.length_nil] at this ⊢
        omega
      rw [splitTop] at hm
      split at hm
      · exact hgrow hm
      · split at hm
        · exact hgrow hm
        · split at hm
          · rcases List.mem_cons.mp hm with rfl | hm
            · simp
            · have := ih hm
              simp only [List.length_nil, List.length_cons] at this ⊢
              omega
          · exact hgrow hm

theorem length_trimPart (part : List Char) : (trimPart part).length ≤ part.length := by
  unfold trimPart
  split
  · exact le_rfl
  · rw [List.length_reverse]
    refine (List.dropWhile_sublist _).length_le.trans ?_
    rw [List.length_reverse]
    exact (List.dropWhile_sublist _).length_le

theorem length_of_mem_splitAtTopLevelCommas {s m : List Char}
    (hm : m ∈ splitAtTopLevelCommas s) : m.length ≤ s.length := by
  obtain ⟨part, hpart, rfl⟩ := List.mem_map.mp (List.mem_of_mem_filter hm)
  have := length_of_mem_splitTop hpart
  simp only [List.length_nil, List.length_append, List.length_cons] at this
  have := length_trimPart part
  omega

theorem length_substr (name : List Char) (pos len : ℕ) :
    (substr name pos len).length ≤ name.length - pos := by
  rw [substr, List.length_take, List.length_drop]
  omega

/-- What a function type is cut into. -/
theorem functionParts_eq_some {name paramPart retPart : List Char}
    (h : functionParts name = some (paramPart, retPart)) :
    ∃ rest i, name = '(' :: rest ∧ find [')', '-', '>'] name = some i ∧
      paramPart = substr name 1 (i - 1) ∧ retPart = name.drop (i + 3) := by
  unfold functionParts at h
  split at h
  · next rest =>
    obtain ⟨i, hi, he⟩ := Option.map_eq_some_iff.mp h
    cases he
    exact ⟨rest, i, rfl, hi, rfl, rfl⟩
  · cases h

section Congr

variable {scope : TypeScope} {f g : List Char → Ty} {name : List Char}

theorem resolveGeneric_congr {base inner : List Char}
    (h : ∀ s : List Char, s.length ≤ inner.length → f s = g s) :
    resolveGeneric f base inner = resolveGeneric g base inner := by
  have hparts : ∀ s ∈ splitAtTopLevelCommas inner, f s = g s :=
    fun s hs => h s (length_of_mem_splitAtTopLevelCommas hs)
  unfold resolveGeneric
  rw [h inner le_rfl, List.map_congr_left hparts]
  cases hs : splitAtTopLevelCommas inner with
  | nil => rfl
  | cons k ss =>
      rw [hs] at hparts
      cases ss with
      | nil => rfl
      | cons v ss =>
          cases ss with
          | nil => simp only [hparts k (by simp), hparts v (by simp)]
          | cons _ _ => rfl

/-- A call depends on the calls it makes on shorter strings only. -/
theorem resolveStep_congr (h : ∀ s : List Char, s.length < name.length → f s = g s) :
    resolveStep scope f name = resolveStep scope g name := by
  have hmap : ∀ {ss : List (List Char)}, (∀ s ∈ ss, s.length < name.length) →
      ss.map f = ss.map g := fun hss => List.map_congr_left fun s hs => h s (hss s hs)
  unfold resolveStep
  split
  · next hchan =>
    have hlen := hchan.1.length_le
    rw [h _ ((length_substr _ _ _).trans_lt (by simp at hlen; omega))]
  · cases hp : functionParts name with
    | some parts =>
        obtain ⟨paramPart, retPart⟩ := parts
        obtain ⟨rest, i, rfl, -, rfl, rfl⟩ := functionParts_eq_some hp
        have hsub : (substr ('(' :: rest) 1 (i - 1)).length < ('(' :: rest).length :=
          (length_substr _ _ _).trans_lt (by simp)
        simp only
        rw [h _ (by simp), hmap fun s hs => (length_of_mem_splitAll hs).1.trans_lt hsub]
    | none =>
        simp only
        split
        · next hpipe => rw [hmap fun s hs => (length_of_mem_splitAll hs).2 hpipe]
        · unfold resolveBase
          cases find ['['] name with
          | none => rfl
          | some bracketPos =>
              cases hr : rfindChar ']' name with
              | none => rfl
              | some closeBracket =>
                  obtain ⟨u, r, hname, -, -⟩ := rfindChar_eq_some hr
                  have hinner : (substr name (bracketPos + 1)
                      (closeBracket - bracketPos - 1)).length < name.length :=
                    (length_substr _ _ _).trans_lt (by
                      have : 0 < name.length := by rw [hname]; simp
                      omega)
                  simp only
                  rw [resolveGeneric_congr fun s hs => h s (hs.trans_lt hinner)]

end Congr

variable {scope : TypeScope}

theorem resolveFuel_eq {fuel : ℕ} {name : List Char} (h : name.length < fuel) :
    resolveFuel scope fuel name = resolveTypeName scope name := by
  induction fuel using Nat.strong_induction_on generalizing name with
  | _ fuel ih =>
      obtain ⟨fuel, rfl⟩ : ∃ k, fuel = k + 1 := ⟨fuel - 1, by omega⟩
      rw [resolveTypeName, resolveFuel, resolveFuel]
      refine resolveStep_congr fun s hs => ?_
      rw [ih fuel (by omega) (by omega)]
      rcases Nat.lt_or_ge name.length (fuel + 1) with hlt | hge
      · rcases Nat.eq_or_lt_of_le (Nat.le_of_lt_succ hlt) with heq | hlt'
        · rw [← heq] at *
          exact (ih name.length (by omega) hs).symm
        · exact (ih name.length (by omega) hs).symm
      · omega

/-- **The recursion of `resolveTypeName`.** -/
theorem resolveTypeName_eq (name : List Char) :
    resolveTypeName scope name = resolveStep scope (resolveTypeName scope) name := by
  rw [resolveTypeName, resolveFuel]
  exact resolveStep_congr fun s hs => resolveFuel_eq hs

/-! ### What a name resolves to

Each form of type comes from one branch only, so a resolved type says how the name was cut. -/

variable {q s base inner : List Char} {t : Ty}

/-- The types a name is looked up as: a bare collection has unknown elements. -/
def Bare : Ty → Prop
  | .list elem => elem = .unknown
  | .dict key _ => key = .unknown
  | .tuple elems => elems = []
  | .unknown | .func _ _ _ | .union _ | .chan _ => False
  | _ => True

theorem bare_resolveName (scope : TypeScope) (s : List Char) : Bare (resolveName scope s) := by
  unfold resolveName
  repeat' refine iteInduction (motive := Bare) (fun _ => ?_) fun _ => ?_
  all_goals first | exact trivial | exact rfl

/-- The name a looked-up type was written as. -/
def spelling : Ty → List Char
  | .int => intName
  | .float => floatName
  | .str => strName
  | .bool => boolName
  | .void => voidName
  | .null => nullName
  | .list _ => listName
  | .dict _ _ => dictName
  | .tuple _ => tupleName
  | .cls name | .interface name | .typeVar name => name
  | _ => []

theorem spelling_resolveName (scope : TypeScope) (s : List Char) :
    spelling (resolveName scope s) = s := by
  unfold resolveName
  repeat' refine iteInduction (motive := fun t => spelling t = s) (fun h => ?_) fun _ => ?_
  all_goals first | rfl | exact h.symm

theorem resolveName_injective : Function.Injective (resolveName scope) := fun s s' h => by
  rw [← spelling_resolveName scope s, h, spelling_resolveName]

/-- What the last two branches give: a name without `|` is looked up, or cut at its first `[` and
its last `]`, or taken for a class. -/
theorem resolveBase_cases (scope : TypeScope) (f : List Char → Ty) (q : List Char) :
    ('[' ∉ q ∧ resolveBase scope f q = resolveName scope q) ∨
    (∃ base inner v, q = base ++ '[' :: (inner ++ ']' :: v) ∧ '[' ∉ base ∧ ']' ∉ v ∧
      resolveBase scope f q = resolveGeneric f base inner) ∨
    ∃ base, resolveBase scope f q = .cls base := by
  unfold resolveBase
  cases hb : find ['['] q with
  | none =>
      refine .inl ⟨fun hmem => ?_, rfl⟩
      obtain ⟨u, r, rfl⟩ := List.append_of_mem hmem
      obtain ⟨i, -, hi⟩ := find_isSome u ['['] r
      exact absurd (hb.symm.trans hi) (by simp)
  | some bracketPos =>
      refine .inr ?_
      cases hr : rfindChar ']' q with
      | none => exact .inr ⟨_, rfl⟩
      | some closeBracket =>
          simp only
          split
          · next hlt =>
            obtain ⟨hpre, hle, hmin⟩ := find_spec hb
            obtain ⟨u, v, rfl, hv, rfl⟩ := rfindChar_eq_some hr
            have hnot : '[' ∉ (u ++ ']' :: v).take bracketPos := by
              intro hmem
              obtain ⟨j, hj, hget⟩ := List.mem_iff_getElem.mp hmem
              rw [List.length_take] at hj
              refine hmin j (by omega) ?_
              rw [List.drop_eq_getElem_cons (by omega)]
              rw [List.getElem_take] at hget
              rw [hget]
              exact List.prefix_append ['['] _
            have hbracket : (u ++ ']' :: v).take bracketPos ++ ['['] <+: u := by
              refine List.prefix_of_prefix_length_le ?_ (List.prefix_append u (']' :: v))
                (by simp; omega)
              obtain ⟨w, hw⟩ := hpre
              exact ⟨w, by rw [List.append_assoc, hw, List.take_append_drop]⟩
            obtain ⟨inner, hinner⟩ := hbracket
            have hlen : bracketPos + 1 + inner.length = u.length := by
              have := congrArg List.length hinner
              simp only [List.length_append, List.length_take, List.length_cons,
                List.length_nil] at this
              omega
            have hsub : substr (u ++ ']' :: v) (bracketPos + 1) (u.length - bracketPos - 1) =
                inner := by
              have htake : ((u ++ ']' :: v).take bracketPos ++ ['[']).length = bracketPos + 1 := by
                simp only [List.length_append, List.length_take, List.length_cons,
                  List.length_nil]
                omega
              rw [substr, show u.length - bracketPos - 1 = inner.length by omega]
              conv_lhs => rw [← hinner, List.append_assoc, ← htake]
              rw [List.drop_left, List.take_left]
            refine .inl ⟨_, inner, v, ?_, hnot, hv, by rw [hsub]⟩
            have hjoin : (u ++ ']' :: v).take bracketPos ++ '[' :: (inner ++ ']' :: v) =
                (u ++ ']' :: v).take bracketPos ++ ['['] ++ inner ++ ']' :: v := by simp
            rw [hjoin, hinner]
          · exact .inr ⟨_, rfl⟩

/-- A text between `chan[` and a last `]`. -/
theorem chan_form (hpre : ['c', 'h', 'a', 'n', '['] <+: q) (hlast : q.getLast? = some ']') :
    ∃ s, q = ['c', 'h', 'a', 'n', '['] ++ s ++ [']'] ∧ substr q 5 (q.length - 5 - 1) = s := by
  obtain ⟨w, rfl⟩ := hpre
  cases w using List.reverseRecOn with
  | nil => cases hlast
  | append_singleton s c _ =>
      rw [← List.append_assoc, List.getLast?_concat] at hlast
      cases hlast
      exact ⟨s, (List.append_assoc _ _ _).symm, by simp [substr]⟩

theorem resolve_chan (s : List Char) :
    resolveTypeName scope (['c', 'h', 'a', 'n', '['] ++ s ++ [']']) =
      .chan (resolveTypeName scope s) := by
  rw [resolveTypeName_eq, resolveStep,
    if_pos ⟨⟨s ++ [']'], (List.append_assoc _ _ _).symm⟩, List.getLast?_concat⟩]
  congr 2
  simp [substr]

/-- The types the last two branches give. -/
def IsBase : Ty → Prop
  | .chan _ | .func _ _ _ | .union _ => False
  | _ => True

theorem isBase_resolveBase (f : List Char → Ty) : IsBase (resolveBase scope f q) := by
  rcases resolveBase_cases scope f q with ⟨-, h⟩ | ⟨base, inner, v, -, -, -, h⟩ | ⟨base, h⟩
  · have hbare := bare_resolveName scope q
    rw [h]
    cases hr : resolveName scope q <;> rw [hr] at hbare <;> trivial
  · rw [h, resolveGeneric]
    split_ifs
    · trivial
    · split <;> trivial
    · trivial
    · trivial
  · rw [h]
    trivial

theorem resolveBase_ne {f : List Char → Ty} (ht : ¬ IsBase t) : resolveBase scope f q ≠ t :=
  fun h => ht (h ▸ isBase_resolveBase f)

theorem resolve_eq_chan (h : resolveTypeName scope q = .chan t) :
    ∃ s, q = ['c', 'h', 'a', 'n', '['] ++ s ++ [']'] ∧ resolveTypeName scope s = t := by
  rw [resolveTypeName_eq, resolveStep] at h
  split at h
  · next hchan =>
    obtain ⟨s, hq, hsub⟩ := chan_form hchan.1 hchan.2
    exact ⟨s, hq, hsub ▸ Ty.chan.inj h⟩
  · split at h
    · cases h
    · split at h
      · cases h
      · exact absurd h (resolveBase_ne id)

theorem resolve_eq_func {name : List Char} {params : List Ty}
    (h : resolveTypeName scope q = .func name t params) :
    ∃ paramPart retPart, functionParts q = some (paramPart, retPart) ∧
      resolveTypeName scope retPart = t ∧
      (splitAll ',' paramPart).map (resolveTypeName scope) = params := by
  rw [resolveTypeName_eq, resolveStep] at h
  split at h
  · cases h
  · split at h
    · next paramPart retPart hparts =>
      obtain ⟨-, hret, hparams⟩ := Ty.func.inj h
      exact ⟨paramPart, retPart, hparts, hret, hparams⟩
    · split at h
      · cases h
      · exact absurd h (resolveBase_ne id)

theorem resolve_eq_union {members : List Ty} (h : resolveTypeName scope q = .union members) :
    functionParts q = none ∧ (splitAll '|' q).map (resolveTypeName scope) = members := by
  rw [resolveTypeName_eq, resolveStep] at h
  split at h
  · cases h
  · split at h
    · cases h
    · next hparts =>
      split at h
      · exact ⟨hparts, Ty.union.inj h⟩
      · exact absurd h (resolveBase_ne id)

theorem resolve_eq_base (h : resolveTypeName scope q = t) (ht : IsBase t) :
    '|' ∉ q ∧ resolveBase scope (resolveTypeName scope) q = t := by
  subst h
  rw [resolveTypeName_eq, resolveStep] at ht ⊢
  split at ht
  · cases ht
  · next hchan =>
    rw [if_neg hchan]
    cases hp : functionParts q with
    | some parts =>
        rw [hp] at ht
        cases ht
    | none =>
        rw [hp] at ht
        simp only at ht ⊢
        split at ht
        · cases ht
        · next hpipe =>
          rw [if_neg hpipe]
          exact ⟨hpipe, rfl⟩

/-- A function type whose parameters have no parenthesis. -/
theorem resolve_func {params ret : List Char} (hp : ')' ∉ params) :
    resolveTypeName scope ('(' :: params ++ [')', '-', '>'] ++ ret) =
      .func fnTypeName (resolveTypeName scope ret)
        ((splitAll ',' params).map (resolveTypeName scope)) := by
  have hfind : find [')', '-', '>'] ('(' :: params ++ [')', '-', '>'] ++ ret) =
      some (params.length + 1) := by
    have := find_append (a := ')') (u := '(' :: params) (by simp [hp]) ['-', '>'] ret
    rw [← List.append_assoc] at this
    exact this
  have hparts : functionParts ('(' :: params ++ [')', '-', '>'] ++ ret) = some (params, ret) := by
    rw [List.cons_append, List.cons_append] at hfind ⊢
    have hdrop : (params ++ ')' :: '-' :: '>' :: ret).drop (params.length + 1 + 2) = ret := by
      rw [Nat.add_assoc, ← List.drop_drop, List.drop_left]
      rfl
    rw [functionParts, hfind]
    simp [substr, hdrop]
  rw [resolveTypeName_eq, resolveStep, if_neg (by simp), hparts]

theorem resolve_union (hchan : ¬ (['c', 'h', 'a', 'n', '['] <+: q ∧ q.getLast? = some ']'))
    (hfunc : functionParts q = none) (hpipe : '|' ∈ q) :
    resolveTypeName scope q = .union ((splitAll '|' q).map (resolveTypeName scope)) := by
  rw [resolveTypeName_eq, resolveStep, if_neg hchan, hfunc]
  exact if_pos hpipe

theorem functionParts_eq_none (h : q.head? ≠ some '(') : functionParts q = none := by
  unfold functionParts
  split
  · exact absurd rfl h
  · rfl

theorem find_eq_none (h : '[' ∉ q) : find ['['] q = none := by
  cases hf : find ['['] q with
  | none => rfl
  | some i =>
      have hmem := (find_spec hf).1.subset (List.mem_singleton_self '[')
      exact absurd (List.mem_of_mem_drop hmem) h

/-- A plain name. -/
theorem resolve_name (hbracket : '[' ∉ q) (hparen : q.head? ≠ some '(') (hpipe : '|' ∉ q) :
    resolveTypeName scope q = resolveName scope q := by
  rw [resolveTypeName_eq, resolveStep, if_neg fun h => hbracket (h.1.subset (by simp)),
    functionParts_eq_none hparen]
  simp only
  rw [if_neg hpipe, resolveBase, find_eq_none hbracket]

/-- The first `[` decides where a text is cut. -/
theorem append_bracket_inj {u u' v v' : List Char} (hu : '[' ∉ u) (hu' : '[' ∉ u')
    (h : u ++ '[' :: v = u' ++ '[' :: v') : u = u' ∧ v = v' := by
  have htake := congrArg (List.takeWhile (· ≠ '[')) h
  rw [takeWhile_append_sep hu, takeWhile_append_sep hu'] at htake
  subst htake
  exact ⟨rfl, by simpa using h⟩

/-- A name with its generic arguments. -/
theorem resolve_generic (hbase : '[' ∉ base) (hchan : base ≠ ['c', 'h', 'a', 'n'])
    (hparen : base.head? ≠ some '(') (hne : base ≠ []) (hpipe : '|' ∉ base) (hinner : '|' ∉ inner) :
    resolveTypeName scope (base ++ '[' :: (inner ++ [']'])) =
      resolveGeneric (resolveTypeName scope) base inner := by
  have hnot : ¬ (['c', 'h', 'a', 'n', '['] <+: base ++ '[' :: (inner ++ [']'])) := by
    intro hpre
    rcases prefix_append_cons hpre with h | ⟨r, hr, -⟩
    · exact hbase (h.subset (by simp))
    · exact hchan (append_bracket_inj (u := ['c', 'h', 'a', 'n']) (v := []) (by simp) hbase hr).1.symm
  have hhead : (base ++ '[' :: (inner ++ [']'])).head? ≠ some '(' := by
    cases base with
    | nil => exact absurd rfl hne
    | cons b base => exact hparen
  have hfind : find ['['] (base ++ '[' :: (inner ++ [']'])) = some base.length :=
    find_append hbase [] _
  have hrfind : rfindChar ']' (base ++ '[' :: (inner ++ [']'])) =
      some (base ++ '[' :: inner).length := by
    have := rfindChar_append (a := ']') (s := []) (u := base ++ '[' :: inner) (by simp)
    rwa [List.append_assoc, List.cons_append] at this
  rw [resolveTypeName_eq, resolveStep, if_neg fun h => hnot h.1, functionParts_eq_none hhead]
  simp only
  rw [if_neg (by simp [hpipe, hinner]), resolveBase, hfind, hrfind]
  simp only
  rw [if_pos (by simp), List.take_left]
  congr 1
  simp [substr]

end Visuall.Types
