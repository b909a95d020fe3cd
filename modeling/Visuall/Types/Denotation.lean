import Visuall.Types.Annotation
import Visuall.Types.Resolve

/-!
# What an annotation denotes

The annotation grammar has names, `?T`, `T?`, unions, `list`, `dict` and `tuple` with their
arguments, channels and functions.  The type of an annotation is its constructors applied to the
types of its parts; a union of unions is the union of all their members.

* `Ann.encode` — the string of an annotation;
* `Ann.members` — the members of an annotation, itself alone if it is no union;
* `Ann.denote` — its type;
* `Ann.Listed` — the annotations of that grammar;
* `Ann.Faithful` — those whose string resolves to their type.
-/

namespace Visuall.Types

namespace Ann

/-- Induction with a hypothesis for every part of an annotation. -/
@[elab_as_elim]
theorem induction {P : Ann → Prop} (opt : ∀ t, P t → P (.opt t))
    (func : ∀ params ret, (∀ t ∈ params, P t) → P ret → P (.func params ret))
    (chan : ∀ t, P t → P (.chan t))
    (base : ∀ name args alternative nullable star, (∀ t ∈ args, P t) →
      (∀ t ∈ alternative, P t) → P (.base name args alternative nullable star)) (a : Ann) : P a := by
  refine @Ann.rec P (fun ts => ∀ t ∈ ts, P t) (fun o => ∀ t ∈ o, P t) opt func chan base
    ?_ ?_ ?_ ?_ a
  · exact fun t ht => absurd ht List.not_mem_nil
  · intro t ts ht hts s hs
    rcases List.mem_cons.mp hs with rfl | hs
    · exact ht
    · exact hts s hs
  · exact fun t ht => absurd ht (by simp)
  · intro t ht s hs
    rw [Option.mem_some_iff] at hs
    exact hs ▸ ht

/-! ### The string -/

/-- The string of an annotation. -/
def encode : Ann → List Char := fold stringBuilder

theorem encode_opt (t : Ann) : (opt t).encode = t.encode ++ ['|', 'n', 'u', 'l', 'l'] := by
  rw [encode, fold]
  rfl

theorem encode_func (params : List Ann) (ret : Ann) :
    (func params ret).encode =
      '(' :: joinWith ',' (params.map encode) ++ [')', '-', '>'] ++ ret.encode := by
  rw [encode, fold, foldList_eq]
  rfl

theorem encode_chan (t : Ann) :
    (chan t).encode = ['c', 'h', 'a', 'n', '['] ++ t.encode ++ [']'] := by
  rw [encode, fold]
  rfl

theorem encode_base (name : Ident) (args : List Ann) (alternative : Option Ann)
    (nullable star : Bool) :
    (base name args alternative nullable star).encode =
      name.chars ++ (if args = [] then [] else '[' :: joinWith ',' (args.map encode) ++ [']']) ++
        (alternative.map encode).elim [] ('|' :: ·) ++
        (if nullable then ['|', 'n', 'u', 'l', 'l'] else []) ++ (if star then ['*'] else []) := by
  rw [encode, fold, foldList_eq, foldOption_eq, stringBuilder]
  simp only [List.map_eq_nil_iff]

/-! ### The type -/

/-- One type stands for itself, several for their union. -/
def unionOf : List Ty → Ty
  | [t] => t
  | ts => .union ts

/-- The type of a base name with generic arguments; an ill-formed one has none. -/
def genericType (scope : TypeScope) (name : List Char) (args : List Ty) : Ty :=
  if args = [] then resolveName scope name
  else if name = listName then .list (args.headD .unknown)
  else if name = dictName then
    match args with
    | [key, value] => .dict key value
    | _ => .unknown
  else if name = tupleName then .tuple args
  else .unknown

/-- The members of the type of an annotation. -/
def typeBuilder (scope : TypeScope) : Builder (List Ty) where
  optional ts := ts ++ [resolveName scope nullName]
  function params ret := [.func fnTypeName (unionOf ret) (params.map unionOf)]
  channel ts := [.chan (unionOf ts)]
  base name args alternative nullable _ :=
    genericType scope name.chars (args.map unionOf) ::
      (alternative.getD [] ++ if nullable then [resolveName scope nullName] else [])

/-- The type an annotation denotes. -/
def denote (scope : TypeScope) (a : Ann) : Ty := unionOf (a.fold (typeBuilder scope))

/-! ### Members -/

/-- `null` as an annotation. -/
def null : Ann := .base nullIdent [] none false false

mutual

/-- The members of an annotation. -/
def members : Ann → List Ann
  | opt t => members t ++ [null]
  | base name args alternative nullable _ =>
      base name args none false false ::
        (membersOption alternative ++ if nullable then [null] else [])
  | t => [t]

/-- The members of an alternative. -/
def membersOption : Option Ann → List Ann
  | none => []
  | some t => members t

end

/-- What an annotation is made of: pointer suffixes are left out, `list` takes one argument,
`dict` two and `tuple` one or more, and no other name takes any. -/
def listedBuilder : Builder Bool where
  optional t := t
  function params ret := params.all id && ret
  channel t := t
  base name args alternative _ star :=
    !star && args.all id && alternative.all id &&
      (args.isEmpty || (name.chars = listName && args.length == 1) ||
        (name.chars = dictName && args.length == 2) || name.chars = tupleName)

/-- The annotation is of the grammar. -/
def Listed (a : Ann) : Prop := a.fold listedBuilder = true

/-- Whether a union, a function type, or a list of several types occurs. -/
def occursBuilder (union function several : Bool) : Builder Bool where
  optional t := union || t
  function params ret := function || (several && decide (2 ≤ params.length)) || params.any id || ret
  channel t := t
  base _ args alternative nullable _ :=
    (several && decide (2 ≤ args.length)) || args.any id || alternative.any (union || ·) ||
      (union && nullable)

/-- A `|` or a `?` occurs in the annotation. -/
def HasUnion (a : Ann) : Prop := a.fold (occursBuilder true false false) = true

/-- A function type occurs in the annotation. -/
def HasFunction (a : Ann) : Prop := a.fold (occursBuilder false true false) = true

/-- A comma occurs in the annotation. -/
def HasComma (a : Ann) : Prop := a.fold (occursBuilder false false true) = true

/-- **When the string of an annotation keeps its type.**  No union inside the arguments of `list`,
`dict` or `tuple`; no comma and no function type inside the parameters of a function type; and a
union does not begin with a function type and has no member with a union inside. -/
inductive Faithful : Ann → Prop
  | base (name : Ident) (args : List Ann) (hargs : ∀ t ∈ args, Faithful t)
      (hunion : ∀ t ∈ args, ¬ HasUnion t) : Faithful (.base name args none false false)
  | chan (t : Ann) (ht : Faithful t) : Faithful (.chan t)
  | func (params : List Ann) (ret : Ann) (hparams : ∀ t ∈ params, Faithful t)
      (hflat : ∀ t ∈ params, ¬ HasComma t ∧ ¬ HasFunction t) (hret : Faithful ret) :
      Faithful (.func params ret)
  | union (a : Ann) (hlen : 2 ≤ a.members.length)
      (hhead : ∀ params ret, a.members.head? ≠ some (.func params ret))
      (hmembers : ∀ t ∈ a.members, Faithful t) (hunion : ∀ t ∈ a.members, ¬ HasUnion t) :
      Faithful a

/-! ### The parts of a listed annotation -/

theorem listed_opt {t : Ann} : (opt t).Listed ↔ t.Listed := by
  rw [Listed, fold]
  rfl

theorem listed_chan {t : Ann} : (chan t).Listed ↔ t.Listed := by
  rw [Listed, fold]
  rfl

theorem listed_func {params : List Ann} {ret : Ann} :
    (func params ret).Listed ↔ (∀ t ∈ params, t.Listed) ∧ ret.Listed := by
  rw [Listed, fold, foldList_eq]
  change ((params.map (fold listedBuilder)).all id && ret.fold listedBuilder) = true ↔ _
  simp [Listed]

theorem listed_base {name : Ident} {args : List Ann} {alternative : Option Ann}
    {nullable star : Bool} :
    (base name args alternative nullable star).Listed ↔
      star = false ∧ (∀ t ∈ args, t.Listed) ∧ (∀ t ∈ alternative, t.Listed) ∧
        (args = [] ∨ (name.chars = listName ∧ args.length = 1) ∨
          (name.chars = dictName ∧ args.length = 2) ∨ name.chars = tupleName) := by
  rw [Listed, fold, foldList_eq, foldOption_eq]
  change (!star && (args.map (fold listedBuilder)).all id &&
    (alternative.map (fold listedBuilder)).all id &&
    ((args.map (fold listedBuilder)).isEmpty ||
      (name.chars = listName && (args.map (fold listedBuilder)).length == 1) ||
      (name.chars = dictName && (args.map (fold listedBuilder)).length == 2) ||
      name.chars = tupleName)) = true ↔ _
  cases alternative <;> simp [Listed, and_assoc, or_assoc]

theorem listed_null : null.Listed := by
  rw [null, listed_base]
  simp

/-! ### Members -/

@[simp] theorem members_opt {t : Ann} : (opt t).members = t.members ++ [null] := rfl

@[simp] theorem members_func {params : List Ann} {ret : Ann} :
    (func params ret).members = [func params ret] := rfl

@[simp] theorem members_chan {t : Ann} : (chan t).members = [chan t] := rfl

theorem members_base {name : Ident} {args : List Ann} {alternative : Option Ann}
    {nullable star : Bool} :
    (base name args alternative nullable star).members =
      base name args none false false ::
        ((alternative.elim [] members) ++ if nullable then [null] else []) := by
  cases alternative <;> rfl

theorem members_ne_nil (a : Ann) : a.members ≠ [] := by
  cases a with
  | opt t => simp
  | func params ret => simp
  | chan t => simp
  | base name args alternative nullable star => simp [members_base]

/-- A member is no union. -/
theorem members_of_mem {a t : Ann} (h : t ∈ a.members) : t.members = [t] := by
  induction a using Ann.induction with
  | opt s ih =>
      rw [members_opt, List.mem_append, List.mem_singleton] at h
      rcases h with h | rfl
      · exact ih h
      · rfl
  | func params ret => rw [List.mem_singleton.mp h, members_func]
  | chan s => rw [List.mem_singleton.mp h, members_chan]
  | base name args alternative nullable star hargs halt =>
      rw [members_base, List.mem_cons, List.mem_append] at h
      rcases h with rfl | h | h
      · rfl
      · cases alternative with
        | none => exact absurd h List.not_mem_nil
        | some s => exact halt s rfl h
      · cases nullable with
        | false => exact absurd h List.not_mem_nil
        | true =>
            rw [List.mem_singleton.mp h]
            rfl

theorem listed_of_mem_members {a t : Ann} (ha : a.Listed) (h : t ∈ a.members) : t.Listed := by
  induction a using Ann.induction with
  | opt s ih =>
      rw [members_opt, List.mem_append, List.mem_singleton] at h
      rcases h with h | rfl
      · exact ih (listed_opt.mp ha) h
      · exact listed_null
  | func params ret => rwa [List.mem_singleton.mp h]
  | chan s => rwa [List.mem_singleton.mp h]
  | base name args alternative nullable star hargs halt =>
      obtain ⟨-, hl, hla, harity⟩ := listed_base.mp ha
      rw [members_base, List.mem_cons, List.mem_append] at h
      rcases h with rfl | h | h
      · exact listed_base.mpr ⟨rfl, hl, by simp, harity⟩
      · cases alternative with
        | none => exact absurd h List.not_mem_nil
        | some s => exact halt s rfl (hla s rfl) h
      · cases nullable with
        | false => exact absurd h List.not_mem_nil
        | true =>
            rw [List.mem_singleton.mp h]
            exact listed_null

theorem encode_null : null.encode = nullName := by
  rw [null, encode_base]
  simp [nullIdent, nullName]

/-- The string of an annotation is the strings of its members with `|` between them. -/
theorem encode_eq_joinWith {a : Ann} (ha : a.Listed) :
    a.encode = joinWith '|' (a.members.map encode) := by
  induction a using Ann.induction with
  | opt t ih =>
      rw [encode_opt, members_opt, List.map_append, ih (listed_opt.mp ha),
        joinWith_append (by simp [members_ne_nil]) (by simp), List.map_singleton, encode_null]
      rfl
  | func params ret => rfl
  | chan t => rfl
  | base name args alternative nullable star hargs halt =>
      obtain ⟨rfl, -, hla, -⟩ := listed_base.mp ha
      have hhead : (base name args none false false).encode =
          name.chars ++ (if args = [] then [] else '[' :: joinWith ',' (args.map encode) ++ [']']) := by
        simp [encode_base]
      rw [members_base, List.map_cons, encode_base, hhead]
      cases alternative with
      | none =>
          cases nullable with
          | false => simp
          | true => simp [joinWith_cons, encode_null, nullName]
      | some t =>
          have ih := halt t rfl (hla t rfl)
          have hne : t.members.map encode ≠ [] := by simp [members_ne_nil]
          cases nullable with
          | false => simp [joinWith_cons hne, ih]
          | true =>
              simp [joinWith_cons, joinWith_append hne, ih, encode_null, nullName]

/-! ### Types of members -/

variable {scope : TypeScope}

theorem fold_type_base (name : Ident) (args : List Ann) (alternative : Option Ann)
    (nullable star : Bool) :
    (base name args alternative nullable star).fold (typeBuilder scope) =
      genericType scope name.chars (args.map (denote scope)) ::
        ((alternative.map (fold (typeBuilder scope))).getD [] ++
          if nullable then [resolveName scope nullName] else []) := by
  rw [fold, foldList_eq, foldOption_eq]
  change genericType scope name.chars ((args.map (fold (typeBuilder scope))).map unionOf) :: _ = _
  rw [List.map_map]
  rfl

theorem denote_base_none {name : Ident} {args : List Ann} :
    (base name args none false false).denote scope =
      genericType scope name.chars (args.map (denote scope)) := by
  rw [denote, fold_type_base]
  rfl

theorem denote_null : null.denote scope = resolveName scope nullName := by
  rw [null, denote_base_none]
  rfl

theorem denote_chan {t : Ann} : (chan t).denote scope = .chan (t.denote scope) := by
  rw [denote, fold]
  rfl

theorem denote_func {params : List Ann} {ret : Ann} :
    (func params ret).denote scope =
      .func fnTypeName (ret.denote scope) (params.map (denote scope)) := by
  rw [denote, fold, foldList_eq]
  change Ty.func fnTypeName (ret.denote scope)
    ((params.map (fold (typeBuilder scope))).map unionOf) = _
  rw [List.map_map]
  rfl

/-- The members of the type are the types of the members. -/
theorem fold_type_eq (a : Ann) :
    a.fold (typeBuilder scope) = a.members.map (denote scope) := by
  induction a using Ann.induction with
  | opt t ih =>
      rw [members_opt, List.map_append, ← ih, List.map_singleton, denote_null, fold]
      rfl
  | func params ret =>
      rw [members_func, List.map_singleton, fold]
      rfl
  | chan t =>
      rw [members_chan, List.map_singleton, fold]
      rfl
  | base name args alternative nullable star hargs halt =>
      rw [fold_type_base, members_base, List.map_cons, denote_base_none, List.map_append]
      congr 2
      · cases alternative with
        | none => rfl
        | some t => exact halt t rfl
      · cases nullable with
        | false => rfl
        | true => simp [denote_null]

theorem denote_eq_unionOf (a : Ann) : a.denote scope = unionOf (a.members.map (denote scope)) := by
  rw [denote, fold_type_eq]

/-- An annotation with several members denotes their union. -/
theorem denote_of_members {a : Ann} (h : 2 ≤ a.members.length) :
    a.denote scope = .union (a.members.map (denote scope)) := by
  rw [denote_eq_unionOf]
  match hm : a.members with
  | [] => rw [hm] at h; simp at h
  | [t] => rw [hm] at h; simp at h
  | t :: u :: ts => rfl

/-- The annotations that are no unions. -/
theorem cases_single {a : Ann} (ha : a.Listed) :
    (∃ name args, a = base name args none false false) ∨ (∃ t, a = chan t) ∨
      (∃ params ret, a = func params ret) ∨ 2 ≤ a.members.length := by
  cases a with
  | opt t =>
      have := List.length_pos_iff.mpr (members_ne_nil t)
      exact .inr (.inr (.inr (by rw [members_opt, List.length_append]; simp; omega)))
  | func params ret => exact .inr (.inr (.inl ⟨params, ret, rfl⟩))
  | chan t => exact .inr (.inl ⟨t, rfl⟩)
  | base name args alternative nullable star =>
      obtain ⟨rfl, -⟩ := listed_base.mp ha
      cases alternative with
      | some t =>
          have := List.length_pos_iff.mpr (members_ne_nil t)
          exact .inr (.inr (.inr (by rw [members_base]; simp; omega)))
      | none =>
          cases nullable with
          | true => exact .inr (.inr (.inr (by simp [members_base])))
          | false => exact .inl ⟨name, args, rfl⟩

end Ann

end Visuall.Types
