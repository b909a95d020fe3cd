import Visuall.Types.Strings

/-!
# Which annotations survive their string

Form by form: a name with arguments, a channel, a function type and a union are read right exactly
when their parts are, and when the marks that the checker looks for stand nowhere inside the parts.

* `survives_base`, `survives_func`, `survives_union` — the forms;
* `resolve_encode_iff` — a string resolves to the type of its annotation exactly when the
  annotation is faithful;
* `annotation_survives_iff` — so for every annotation the parser accepts.
-/

namespace Visuall.Types

open Ann

variable {scope : TypeScope}

/-! ### Strings whose pieces are read right -/

/-- What the arguments are read as, when each is read by `f`. -/
theorem resolveGeneric_args {name : Ident} {args : List Ann}
    (ha : (base name args none false false).Listed) (hargs : args ≠ []) (f : List Char → Ty) :
    resolveGeneric f name.chars (joinWith ',' (args.map encode)) =
      genericType scope name.chars (args.map fun t => f t.encode) := by
  rcases listed_cases ha with rfl | ⟨hn, t, rfl⟩ | ⟨hn, k, v, rfl⟩ | ⟨hn, -⟩
  · exact absurd rfl hargs
  · rw [hn, resolveGeneric_list]
    rfl
  · rw [hn]
    rcases resolveGeneric_dict_cases f (joinWith ',' ([k, v].map encode)) with
      ⟨k', v', hsplit, hdict⟩ | hclass
    · rw [splitAtTopLevelCommas_joinWith] at hsplit
      rw [hdict]
      cases hsplit
      rfl
    · rw [resolveGeneric, if_neg (by decide), if_pos rfl, splitAtTopLevelCommas_joinWith]
      rfl
  · rw [hn, resolveGeneric_tuple, splitAtTopLevelCommas_joinWith, List.map_map,
      genericType_tuple (by simpa using hargs)]
    rfl

/-- A generic type determines its arguments. -/
theorem genericType_map_inj {name : Ident} {args : List Ann}
    (ha : (base name args none false false).Listed) {f g : Ann → Ty} :
    genericType scope name.chars (args.map f) = genericType scope name.chars (args.map g) ↔
      ∀ t ∈ args, f t = g t := by
  refine ⟨fun h => ?_, fun h => by rw [List.map_congr_left h]⟩
  rcases listed_cases ha with rfl | ⟨hn, t, rfl⟩ | ⟨hn, k, v, rfl⟩ | ⟨hn, hargs⟩
  · simp
  · rw [hn] at h
    simpa using Ty.list.inj h
  · rw [hn] at h
    simpa using Ty.dict.inj h
  · rw [hn, genericType_tuple (by simpa using hargs),
      genericType_tuple (by simpa using hargs)] at h
    exact List.map_inj_left.mp (Ty.tuple.inj h)

theorem isBase_denote {name : Ident} {args : List Ann}
    (ha : (base name args none false false).Listed) :
    IsBase ((base name args none false false).denote scope) := by
  rw [denote_base_none]
  rcases listed_cases ha with rfl | ⟨hn, t, rfl⟩ | ⟨hn, k, v, rfl⟩ | ⟨hn, hargs⟩
  · have hbare := bare_resolveName scope name.chars
    change IsBase (resolveName scope name.chars)
    cases hr : resolveName scope name.chars <;> rw [hr] at hbare <;> trivial
  · rw [hn]
    trivial
  · rw [hn]
    trivial
  · rw [hn, genericType_tuple (by simpa using hargs)]
    trivial

theorem pipe_notMem_args {args : List Ann} :
    '|' ∉ joinWith ',' (args.map encode) ↔ ∀ t ∈ args, ¬ t.HasUnion := by
  rw [mem_joinWith]
  simp [← mem_pipe_iff]

/-- The names that take arguments. -/
theorem listed_name {name : Ident} {args : List Ann}
    (ha : (base name args none false false).Listed) (hargs : args ≠ []) :
    name.chars = listName ∨ name.chars = dictName ∨ name.chars = tupleName := by
  rcases listed_cases ha with h | ⟨hn, -⟩ | ⟨hn, -⟩ | ⟨hn, -⟩
  · exact absurd h hargs
  · exact .inl hn
  · exact .inr (.inl hn)
  · exact .inr (.inr hn)

theorem name_ne_chan {name : Ident} {args : List Ann}
    (ha : (base name args none false false).Listed) (hargs : args ≠ []) :
    name.chars ≠ ['c', 'h', 'a', 'n'] := by
  rcases listed_name ha hargs with h | h | h <;> rw [h] <;> decide

/-- A name with arguments is read right when no `|` is in them and they are read right. -/
theorem survives_base {name : Ident} {args : List Ann}
    (ha : (base name args none false false).Listed) :
    resolveTypeName scope (base name args none false false).encode =
        (base name args none false false).denote scope ↔
      ∀ t ∈ args, ¬ t.HasUnion ∧ resolveTypeName scope t.encode = t.denote scope := by
  by_cases hargs : args = []
  · subst hargs
    rw [encode_name, resolve_ident List.prefix_rfl, denote_base_none]
    simp [genericType_nil]
  · have hread : '|' ∉ joinWith ',' (args.map encode) →
        resolveTypeName scope (base name args none false false).encode =
          genericType scope name.chars (args.map fun t => resolveTypeName scope t.encode) := by
      intro hpipe
      rw [encode_generic hargs, resolve_generic (bracket_notMem name) (name_ne_chan ha hargs)
        (head_ne_paren (paren_notMem name)) name.nonempty (pipe_notMem name) hpipe]
      exact resolveGeneric_args ha hargs (resolveTypeName scope)
    constructor
    · intro h
      have hpipe : '|' ∉ joinWith ',' (args.map encode) := fun hmem =>
        (resolve_eq_base h (isBase_denote ha)).1 (by
          rw [encode_generic hargs]
          simp [hmem])
      rw [hread hpipe, denote_base_none, genericType_map_inj ha] at h
      exact fun t ht => ⟨pipe_notMem_args.mp hpipe t ht, h t ht⟩
    · intro h
      rw [hread (pipe_notMem_args.mpr fun t ht => (h t ht).1), denote_base_none,
        genericType_map_inj ha]
      exact fun t ht => (h t ht).2

theorem map_resolve_encode {ts : List Ann}
    (h : ∀ t ∈ ts, resolveTypeName scope t.encode = t.denote scope) :
    (ts.map encode).map (resolveTypeName scope) = ts.map (denote scope) := by
  rw [List.map_map]
  exact List.map_congr_left h

/-! ### Functions -/

theorem infix_joinWith (sep : Char) {ms : List (List Char)} {m : List Char} (hm : m ∈ ms) :
    m <:+: joinWith sep ms := by
  induction ms with
  | nil => exact absurd hm List.not_mem_nil
  | cons s ms ih =>
      cases ms with
      | nil => rw [List.mem_singleton.mp hm, joinWith_singleton]
      | cons t ms =>
          rw [joinWith_cons_cons]
          rcases List.mem_cons.mp hm with rfl | hm
          · exact (List.prefix_append _ _).isInfix
          · exact (ih hm).trans ((List.suffix_cons _ _).trans (List.suffix_append _ _)).isInfix

/-- The arrow is in the string of every annotation with a function type. -/
theorem arrow_inside {a : Ann} (h : a.HasFunction) : [')', '-', '>'] <:+: a.encode := by
  induction a using Ann.induction with
  | opt t ih =>
      rw [encode_opt]
      exact (ih h).trans (List.prefix_append _ _).isInfix
  | chan t ih =>
      rw [encode_chan, List.append_assoc]
      exact (ih h).trans ((List.prefix_append _ _).isInfix.trans (List.suffix_append _ _).isInfix)
  | func params ret =>
      rw [encode_func]
      exact List.infix_append _ _ _
  | base name args alternative nullable star hargs halt =>
      rw [encode_base]
      rcases (fold_occurs_base false true false name args alternative nullable star).mp h with
        ⟨h', -⟩ | ⟨t, ht, h'⟩ | ⟨t, ht, h' | h'⟩ | ⟨h', -⟩
      · cases h'
      · have hne : args ≠ [] := List.ne_nil_of_mem ht
        have hjoin : t.encode <:+: '[' :: joinWith ',' (args.map encode) ++ [']'] :=
          (infix_joinWith ',' (List.mem_map_of_mem ht)).trans
            ((List.suffix_cons _ _).isInfix.trans (List.prefix_append _ _).isInfix)
        rw [if_neg hne]
        exact ((hargs t ht h').trans hjoin).trans ((List.infix_append _ _ _).trans
          ((List.prefix_append _ _).trans (List.prefix_append _ _)).isInfix)
      · cases h'
      · rw [Option.mem_def.mp ht, Option.map_some, Option.elim_some]
        exact ((halt t ht h').trans (List.suffix_cons _ _).isInfix).trans
          ((List.infix_append _ _ _).trans (List.prefix_append _ _).isInfix)
      · cases h'

/-- A function type is read right when no parameter has a comma or a function type in it and the
parameters and the result are read right. -/
theorem survives_func {params : List Ann} {ret : Ann} (hcut : ∀ t ∈ params, CutNe scope t) :
    resolveTypeName scope (func params ret).encode = (func params ret).denote scope ↔
      (∀ t ∈ params, ¬ t.HasComma ∧ ¬ t.HasFunction ∧
        resolveTypeName scope t.encode = t.denote scope) ∧
      resolveTypeName scope ret.encode = ret.denote scope := by
  constructor
  · intro h
    rw [denote_func] at h
    obtain ⟨paramPart, retPart, hparts, hret, hmap⟩ := resolve_eq_func h
    obtain ⟨rfl, -, hq, heach⟩ := func_parts hcut List.prefix_rfl hparts hmap
    rw [encode_func, List.append_cancel_left_eq] at hq
    refine ⟨fun t ht => ⟨?_, fun hfun => ?_, (heach t ht).2⟩, hq ▸ hret⟩
    · rw [← mem_comma_iff]
      exact (heach t ht).1
    · -- a function type among the parameters has an arrow before the one that was found
      obtain ⟨u, r, hur⟩ := (arrow_inside hfun).trans (infix_joinWith ','
        (List.mem_map_of_mem (f := encode) ht))
      obtain ⟨rest, i, hcons, hfind, hpart, -⟩ := functionParts_eq_some hparts
      obtain ⟨j, hj, hfind'⟩ := find_isSome ('(' :: u) [')', '-', '>']
        (r ++ [')', '-', '>'] ++ ret.encode)
      have hstring : (func params ret).encode =
          '(' :: u ++ ([')', '-', '>'] ++ (r ++ [')', '-', '>'] ++ ret.encode)) := by
        rw [encode_func, ← hur]
        simp
      rw [hstring, hfind'] at hfind
      cases hfind
      have hlen := congrArg List.length hpart
      rw [← hur, substr, List.length_take] at hlen
      simp only [List.length_append, List.length_cons, List.length_nil] at hlen hj
      omega
  · rintro ⟨hparams, hret⟩
    have hparen : ')' ∉ joinWith ',' (params.map encode) := by
      rw [mem_joinWith]
      rintro (⟨m, hm, hc⟩ | ⟨h, -⟩)
      · obtain ⟨t, ht, rfl⟩ := List.mem_map.mp hm
        exact (hparams t ht).2.1 ((mem_paren_iff t).mp hc)
      · exact absurd h (by decide)
    rw [encode_func, resolve_func hparen, denote_func, hret, splitAll_joinWith]
    · rw [map_resolve_encode fun t ht => (hparams t ht).2.2]
    · intro m hm
      obtain ⟨t, ht, rfl⟩ := List.mem_map.mp hm
      exact ⟨fun hc => (hparams t ht).1 ((mem_comma_iff t).mp hc), encode_ne_nil t⟩

/-! ### Unions -/

/-- A union is not taken for a channel. -/
theorem union_not_chan {a : Ann} (ha : a.Listed) (hlen : 2 ≤ a.members.length) :
    ¬ (['c', 'h', 'a', 'n', '['] <+: a.encode ∧ a.encode.getLast? = some ']') := by
  rintro ⟨hpre, hlast⟩
  cases a with
  | opt t =>
      rw [encode_opt] at hlast
      simp at hlast
  | func params ret => simp at hlen
  | chan t => simp at hlen
  | base name args alternative nullable star =>
      obtain ⟨rfl, hl, -, harity⟩ := listed_base.mp ha
      have hbase : (base name args none false false).Listed :=
        listed_base.mpr ⟨rfl, hl, by simp, harity⟩
      -- behind the name stands `[` or `|`
      obtain ⟨c, w, hc, hencode⟩ : ∃ c w, (c = '[' ∧ args ≠ [] ∨ c = '|') ∧
          (base name args alternative nullable false).encode = name.chars ++ c :: w := by
        rw [encode_base]
        by_cases hargs : args = []
        · cases alternative with
          | some t => exact ⟨'|', _, .inr rfl, by simp [hargs]; rfl⟩
          | none =>
              cases nullable with
              | true => exact ⟨'|', _, .inr rfl, by simp [hargs]; rfl⟩
              | false => simp [members_base] at hlen
        · exact ⟨'[', _, .inl ⟨rfl, hargs⟩, by simp [hargs]; rfl⟩
      rw [hencode] at hpre
      rcases prefix_append_cons hpre with h | ⟨r, hr, -⟩
      · exact bracket_notMem name (h.subset (by simp))
      · rcases hc with ⟨rfl, hargs⟩ | rfl
        · exact name_ne_chan hbase hargs
            (append_bracket_inj (v := []) (u := ['c', 'h', 'a', 'n']) (by simp)
              (bracket_notMem name) hr).1.symm
        · have hmem : '|' ∈ ['c', 'h', 'a', 'n', '['] := by
            rw [hr]
            simp
          exact absurd hmem (by decide)

/-- A union is taken for a function type exactly when it begins with one. -/
theorem union_functionParts {a : Ann} (ha : a.Listed) :
    functionParts a.encode = none ↔ ∀ params ret, a.members.head? ≠ some (func params ret) := by
  rw [encode_eq_joinWith ha]
  obtain ⟨t, ts, hts⟩ := List.exists_cons_of_ne_nil (members_ne_nil a)
  have hsingle : t.members = [t] := members_of_mem (a := a) (by rw [hts]; exact List.mem_cons_self)
  obtain ⟨w, hw⟩ : t.encode <+: joinWith '|' ((t :: ts).map encode) := by
    cases ts with
    | nil => exact List.prefix_rfl
    | cons s ts => exact List.prefix_append _ _
  rw [hts, ← hw, List.head?_cons]
  cases t with
  | opt s =>
      have hlen := congrArg List.length hsingle
      have hpos := List.length_pos_iff.mpr (members_ne_nil s)
      rw [members_opt, List.length_append] at hlen
      simp only [List.length_cons, List.length_nil] at hlen
      omega
  | chan s =>
      refine iff_of_true (functionParts_eq_none ?_) fun params ret h => Ann.noConfusion (Option.some.inj h)
      rw [encode_chan]
      simp
  | func params ret =>
      refine iff_of_false ?_ fun h => h params ret rfl
      rw [encode_func, List.append_assoc, List.append_assoc, List.cons_append]
      obtain ⟨i, -, hi⟩ := find_isSome ('(' :: joinWith ',' (params.map encode)) [')', '-', '>']
        (ret.encode ++ w)
      rw [List.cons_append] at hi
      rw [functionParts, hi]
      simp
  | base name args alternative nullable star =>
      refine iff_of_true (functionParts_eq_none ?_) fun params ret h => Ann.noConfusion (Option.some.inj h)
      obtain ⟨c, cs, hcs⟩ := List.exists_cons_of_ne_nil name.nonempty
      have hparen : c ≠ '(' := fun h => paren_notMem name (by simp [hcs, h])
      rw [encode_base, hcs]
      simpa using hparen

/-- A union is read right when it does not begin with a function type, no member has a union
inside, and the members are read right. -/
theorem survives_union {a : Ann} (ha : a.Listed) (hlen : 2 ≤ a.members.length)
    (hcut : ∀ t ∈ a.members, CutNe scope t) :
    resolveTypeName scope a.encode = a.denote scope ↔
      (∀ params ret, a.members.head? ≠ some (func params ret)) ∧
      ∀ t ∈ a.members, ¬ t.HasUnion ∧ resolveTypeName scope t.encode = t.denote scope := by
  rw [← union_functionParts ha]
  constructor
  · intro h
    rw [denote_of_members hlen] at h
    obtain ⟨hparts, hmap⟩ := resolve_eq_union h
    rw [encode_eq_joinWith ha] at hmap
    obtain ⟨-, heach⟩ := splitAll_cut hcut List.prefix_rfl hmap
    exact ⟨hparts, fun t ht => ⟨fun hu => (heach t ht).1 ((mem_pipe_iff t).mpr hu),
      (heach t ht).2⟩⟩
  · rintro ⟨hparts, hmembers⟩
    have hpipe : '|' ∈ a.encode := by
      rw [encode_eq_joinWith ha, mem_joinWith]
      exact .inr ⟨rfl, by simpa using hlen⟩
    rw [resolve_union (union_not_chan ha hlen) hparts hpipe, denote_of_members hlen,
      encode_eq_joinWith ha, splitAll_joinWith]
    · rw [map_resolve_encode fun t ht => (hmembers t ht).2]
    · intro m hm
      obtain ⟨t, ht, rfl⟩ := List.mem_map.mp hm
      exact ⟨fun hc => (hmembers t ht).1 ((mem_pipe_iff t).mp hc), encode_ne_nil t⟩

/-! ### Faithful annotations -/

theorem faithful_base {name : Ident} {args : List Ann} :
    (base name args none false false).Faithful ↔ ∀ t ∈ args, ¬ t.HasUnion ∧ t.Faithful := by
  constructor
  · intro h
    cases h with
    | base _ _ hargs hunion => exact fun t ht => ⟨hunion t ht, hargs t ht⟩
    | union _ hlen => simp [members_base] at hlen
  · exact fun h => .base name args (fun t ht => (h t ht).2) fun t ht => (h t ht).1

theorem faithful_chan {t : Ann} : (chan t).Faithful ↔ t.Faithful := by
  constructor
  · intro h
    cases h with
    | chan _ ht => exact ht
    | union _ hlen => simp at hlen
  · exact .chan t

theorem faithful_func {params : List Ann} {ret : Ann} :
    (func params ret).Faithful ↔
      (∀ t ∈ params, ¬ t.HasComma ∧ ¬ t.HasFunction ∧ t.Faithful) ∧ ret.Faithful := by
  constructor
  · intro h
    cases h with
    | func _ _ hparams hflat hret =>
        exact ⟨fun t ht => ⟨(hflat t ht).1, (hflat t ht).2, hparams t ht⟩, hret⟩
    | union _ hlen => simp at hlen
  · rintro ⟨hparams, hret⟩
    exact .func params ret (fun t ht => (hparams t ht).2.2)
      (fun t ht => ⟨(hparams t ht).1, (hparams t ht).2.1⟩) hret

theorem faithful_union {a : Ann} (hlen : 2 ≤ a.members.length) :
    a.Faithful ↔ (∀ params ret, a.members.head? ≠ some (func params ret)) ∧
      ∀ t ∈ a.members, ¬ t.HasUnion ∧ t.Faithful := by
  constructor
  · intro h
    cases h with
    | base => simp [members_base] at hlen
    | chan => simp at hlen
    | func => simp at hlen
    | union _ _ hhead hmembers hunion =>
        exact ⟨hhead, fun t ht => ⟨hunion t ht, hmembers t ht⟩⟩
  · rintro ⟨hhead, hmembers⟩
    exact .union a hlen hhead (fun t ht => (hmembers t ht).2) fun t ht => (hmembers t ht).1

/-- **The string of an annotation resolves to its type exactly when it is faithful.**  By induction
on the length of the string, form by form. -/
theorem resolve_encode_iff {a : Ann} (ha : a.Listed) :
    resolveTypeName scope a.encode = a.denote scope ↔ a.Faithful := by
  induction hn : a.encode.length using Nat.strong_induction_on generalizing a with
  | _ n ih =>
      subst hn
      rcases cases_single ha with ⟨name, args, rfl⟩ | ⟨t, rfl⟩ | ⟨params, ret, rfl⟩ | hlen
      · rw [survives_base ha, faithful_base]
        exact forall₂_congr fun t ht => and_congr_right fun _ =>
          ih _ (length_encode_arg ht) ((listed_base.mp ha).2.1 t ht) rfl
      · rw [encode_chan, resolve_chan, denote_chan, faithful_chan, Ty.chan.injEq]
        refine ih _ ?_ (listed_chan.mp ha) rfl
        simp [encode_chan]
        omega
      · obtain ⟨hparams, hret⟩ := listed_func.mp ha
        rw [survives_func fun t ht => cut_ne (hparams t ht), faithful_func]
        refine and_congr (forall₂_congr fun t ht => and_congr_right fun _ => and_congr_right fun _ =>
          ih _ (length_encode_param ht) (hparams t ht) rfl) (ih _ ?_ hret rfl)
        simp [encode_func]
        omega
      · rw [survives_union ha hlen fun t ht => cut_ne (listed_of_mem_members ha ht),
          faithful_union hlen]
        exact and_congr_right fun _ => forall₂_congr fun t ht => and_congr_right fun _ =>
          ih _ (length_encode_lt ha hlen ht) (listed_of_mem_members ha ht) rfl

/-- **Which annotations survive their string.**  An accepted annotation of the grammar is read back
as the type it denotes exactly when no union stands inside the arguments of `list`, `dict` or
`tuple`, no comma and no function type inside the parameters of a function type, and no union
begins with a function type or has a member with a union inside. -/
theorem annotation_survives_iff {fuel : ℕ} {toks rest : List Token} {str : List Char}
    (h : parseTypeAnnotation fuel toks = .ok (str, rest)) :
    ∃ a, parseAnn fuel toks = .ok (a, rest) ∧
      (a.Listed → ∀ scope, resolveTypeName scope str = a.denote scope ↔ a.Faithful) := by
  unfold parseTypeAnnotation at h
  rw [parseWith_eq] at h
  cases ha : parseAnn fuel toks with
  | error stop =>
      rw [ha] at h
      cases h
  | ok res =>
      obtain ⟨a, rest'⟩ := res
      rw [ha] at h
      cases h
      exact ⟨a, rfl, fun hlisted scope => resolve_encode_iff hlisted⟩

/-- The identifier `list`. -/
def listIdent : Ident := ⟨listName, by simp [listName], by simp [listName, isIdentChar]⟩

/-- The identifier `int`. -/
def intIdent : Ident := ⟨intName, by simp [intName], by simp [intName, isIdentChar]⟩

/-- The identifier `str`. -/
def strIdent : Ident := ⟨strName, by simp [strName], by simp [strName, isIdentChar]⟩

/-- `?list[int]` survives. -/
theorem annotation_survives_optional_list :
    ∃ a, parseAnn 5 [.question, .identifier listIdent, .lbracket, .identifier intIdent,
        .rbracket] = .ok (a, []) ∧
      (a.Listed → ∀ scope, resolveTypeName scope
        ['l', 'i', 's', 't', '[', 'i', 'n', 't', ']', '|', 'n', 'u', 'l', 'l'] = a.denote scope ↔
          a.Faithful) :=
  annotation_survives_iff rfl

/-- `list[int | str]` does not: the `|` is looked for before the brackets. -/
theorem list_of_union_lost :
    ¬ ∀ fuel toks str rest a, parseTypeAnnotation fuel toks = .ok (str, rest) →
      parseAnn fuel toks = .ok (a, rest) → a.Listed →
        ∀ scope, resolveTypeName scope str = a.denote scope := by
  intro h
  have hlost := h 6 [.identifier listIdent, .lbracket, .identifier intIdent, .pipe,
    .identifier strIdent, .rbracket] _ _ _ rfl rfl rfl ⟨[], []⟩
  exact Ty.noConfusion hlost

end Visuall.Types
