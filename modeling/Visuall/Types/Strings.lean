import Visuall.Types.Denotation

/-!
# Strings of annotations, cut short

The checker reads an annotation's string by looking for `|`, `)->`, commas and brackets wherever
they stand.  The key fact is `cut_ne`: no string of an annotation, cut short anywhere, resolves to
the type of the annotation.  Whatever piece the checker cuts out at the wrong place is therefore
read as a different type, and reading at the right places is not only enough but needed.

* `Ann.mem_encode_iff`, `Ann.encode_balanced` — what the strings look like;
* `pieces_cut`, `func_parts` — where a string is cut when its pieces are read right;
* `cut_ne` — strings cut short.
-/

namespace Visuall.Types

open Ann

variable {scope : TypeScope}

/-! ### The characters of a string -/

namespace Ann

theorem encode_ne_nil (a : Ann) : a.encode ≠ [] := by
  cases a with
  | opt t => simp [encode_opt]
  | func params ret => simp [encode_func]
  | chan t => simp [encode_chan]
  | base name args alternative nullable star => simp [encode_base, name.nonempty]

theorem notMem_ident {name : Ident} {c : Char} (hc : isIdentChar c = false) : c ∉ name.chars :=
  fun h => by
    rw [name.isIdent c h] at hc
    cases hc

theorem fold_occurs_func (u f s : Bool) (params : List Ann) (ret : Ann) :
    (func params ret).fold (occursBuilder u f s) = true ↔
      f = true ∨ (s = true ∧ 2 ≤ params.length) ∨
        (∃ t ∈ params, t.fold (occursBuilder u f s) = true) ∨
        ret.fold (occursBuilder u f s) = true := by
  rw [fold, foldList_eq]
  change (f || (s && decide (2 ≤ (params.map (fold (occursBuilder u f s))).length)) ||
    (params.map (fold (occursBuilder u f s))).any id || ret.fold (occursBuilder u f s)) = true ↔ _
  simp [or_assoc]

theorem fold_occurs_base (u f s : Bool) (name : Ident) (args : List Ann)
    (alternative : Option Ann) (nullable star : Bool) :
    (base name args alternative nullable star).fold (occursBuilder u f s) = true ↔
      (s = true ∧ 2 ≤ args.length) ∨ (∃ t ∈ args, t.fold (occursBuilder u f s) = true) ∨
        (∃ t ∈ alternative, u = true ∨ t.fold (occursBuilder u f s) = true) ∨
        (u = true ∧ nullable = true) := by
  rw [fold, foldList_eq, foldOption_eq]
  change ((s && decide (2 ≤ (args.map (fold (occursBuilder u f s))).length)) ||
    (args.map (fold (occursBuilder u f s))).any id ||
    (alternative.map (fold (occursBuilder u f s))).any (u || ·) || (u && nullable)) = true ↔ _
  cases alternative <;> simp [or_assoc]

/-- A mark is in the string exactly when a form of annotation that writes it occurs. -/
theorem mem_encode_iff {c : Char} {u f s : Bool} (hc : isIdentChar c = false)
    (hu : c = '|' ↔ u = true) (hf : (c = '(' ∨ c = ')' ∨ c = '-' ∨ c = '>') ↔ f = true)
    (hs : c = ',' ↔ s = true) (hother : c ≠ '[' ∧ c ≠ ']' ∧ c ≠ '*') (a : Ann) :
    c ∈ a.encode ↔ a.fold (occursBuilder u f s) = true := by
  have hident : ∀ d, isIdentChar d = true → c ≠ d := fun d hd h => by
    rw [h, hd] at hc
    cases hc
  have hn := hident 'n' (by simp [isIdentChar])
  have hu' := hident 'u' (by simp [isIdentChar])
  have hl := hident 'l' (by simp [isIdentChar])
  have hc' := hident 'c' (by simp [isIdentChar])
  have hh := hident 'h' (by simp [isIdentChar])
  have ha := hident 'a' (by simp [isIdentChar])
  obtain ⟨hlb, hrb, hst⟩ := hother
  induction a using Ann.induction with
  | opt t ih =>
      have hfold : (opt t).fold (occursBuilder u f s) = (u || t.fold (occursBuilder u f s)) := rfl
      rw [encode_opt, hfold]
      simp [ih, hn, hu', hl, hu, or_comm]
  | chan t ih =>
      have hfold : (chan t).fold (occursBuilder u f s) = t.fold (occursBuilder u f s) := rfl
      rw [encode_chan, hfold]
      simp [ih, hn, hc', hh, ha, hlb, hrb]
  | func params ret ihp ihr =>
      have hr : c ∈ ret.encode ↔ ret.fold (occursBuilder u f s) = true := ihr
      rw [encode_func, fold_occurs_func, ← hf, ← hs, ← hr]
      simp only [List.cons_append, List.append_assoc, List.mem_cons, List.mem_append, mem_joinWith,
        List.length_map, List.mem_map, exists_exists_and_eq_and, List.not_mem_nil]
      have hp : (∃ t ∈ params, c ∈ t.encode) ↔
          ∃ t ∈ params, t.fold (occursBuilder u f s) = true :=
        exists_congr fun t => and_congr_right fun ht => ihp t ht
      rw [hp]
      simp only [false_or, or_assoc, or_comm, or_left_comm]
  | base name args alternative nullable star hargs halt =>
      rw [encode_base, fold_occurs_base, ← hu, ← hs]
      have hp : (∃ t ∈ args, c ∈ t.encode) ↔
          ∃ t ∈ args, t.fold (occursBuilder u f s) = true :=
        exists_congr fun t => and_congr_right fun ht => hargs t ht
      rw [← hp]
      have hargs' : c ∈ (if args = [] then [] else '[' :: joinWith ',' (args.map encode) ++ [']']) ↔
          (c = ',' ∧ 2 ≤ args.length) ∨ ∃ t ∈ args, c ∈ t.encode := by
        split
        · next h => simp [h]
        · simp [mem_joinWith, hlb, hrb, or_comm]
      have halt' : c ∈ (alternative.map encode).elim [] ('|' :: ·) ↔
          ∃ t ∈ alternative, c = '|' ∨ t.fold (occursBuilder u f s) = true := by
        cases alternative with
        | none => simp
        | some t => simp [halt t rfl]
      simp only [List.mem_append, hargs', halt', notMem_ident hc, false_or]
      have hnull : c ∈ (if nullable then ['|', 'n', 'u', 'l', 'l'] else []) ↔
          c = '|' ∧ nullable = true := by
        cases nullable <;> simp [hn, hu', hl]
      have hstar : c ∉ (if star then ['*'] else []) := by
        cases star <;> simp [hst]
      simp only [hnull, hstar, or_false, or_assoc]

theorem mem_pipe_iff (a : Ann) : '|' ∈ a.encode ↔ a.HasUnion :=
  mem_encode_iff (by simp [isIdentChar]) (by simp) (by simp) (by simp) (by simp) a

theorem mem_paren_iff (a : Ann) : ')' ∈ a.encode ↔ a.HasFunction :=
  mem_encode_iff (by simp [isIdentChar]) (by simp) (by simp) (by simp) (by simp) a

theorem mem_comma_iff (a : Ann) : ',' ∈ a.encode ↔ a.HasComma :=
  mem_encode_iff (by simp [isIdentChar]) (by simp) (by simp) (by simp) (by simp) a

/-! ### Brackets and blanks -/

theorem fold_occurs_none (a : Ann) : a.fold (occursBuilder false false false) ≠ true := by
  induction a using Ann.induction with
  | opt t ih => exact ih
  | chan t ih => exact ih
  | func params ret ihp ihr =>
      rw [Ne, fold_occurs_func]
      rintro (h | ⟨h, -⟩ | ⟨t, ht, h⟩ | h)
      · cases h
      · cases h
      · exact ihp t ht h
      · exact ihr h
  | base name args alternative nullable star hargs halt =>
      rw [Ne, fold_occurs_base]
      rintro (⟨h, -⟩ | ⟨t, ht, h⟩ | ⟨t, ht, h | h⟩ | ⟨h, -⟩)
      · cases h
      · exact hargs t ht h
      · cases h
      · exact halt t ht h
      · cases h

/-- Blanks are not in a string. -/
theorem isBlank_of_mem {a : Ann} {c : Char} (h : c ∈ a.encode) : isBlank c = false := by
  by_contra hb
  have hblank : c = ' ' ∨ c = '\t' := by simpa [isBlank, or_iff_not_imp_left] using hb
  rcases hblank with rfl | rfl
  · exact fold_occurs_none a ((mem_encode_iff (by simp [isIdentChar]) (by simp) (by simp)
      (by simp) (by simp) a).mp h)
  · exact fold_occurs_none a ((mem_encode_iff (by simp [isIdentChar]) (by simp) (by simp)
      (by simp) (by simp) a).mp h)

abbrev TextBalanced : List Char → Prop := Balanced isOpen isClose ','

theorem textBalanced_append {s t : List Char} (hs : TextBalanced s) (ht : TextBalanced t) :
    TextBalanced (s ++ t) := by
  rw [TextBalanced, Balanced, nest_append, hs, Option.bind_some]
  exact ht

/-- A text without brackets and commas is balanced. -/
theorem textBalanced_of_forall {s : List Char}
    (h : ∀ c ∈ s, isOpen c = false ∧ isClose c = false ∧ c ≠ ',') : TextBalanced s := by
  induction s with
  | nil => rfl
  | cons c s ih =>
      obtain ⟨ho, hc, hcomma⟩ := h c List.mem_cons_self
      rw [TextBalanced, Balanced, nest_cons, ho, hc, if_neg (by simp), if_neg (by simp),
        if_neg fun hk => hcomma hk.1]
      exact ih fun d hd => h d (List.mem_cons_of_mem _ hd)

/-- Balanced texts with commas between them, in brackets. -/
theorem textBalanced_brackets {o c : Char} (ms : List (List Char)) (ho : isOpen o = true)
    (hc : isClose c = true) (hnot : isOpen c = false) (hms : ∀ m ∈ ms, TextBalanced m) :
    TextBalanced (o :: joinWith ',' ms ++ [c]) := by
  rw [TextBalanced, Balanced, List.cons_append, nest_cons, ho, if_pos rfl, nest_append,
    nest_joinWith hms rfl rfl 0, Option.bind_some, nest_cons, hnot, hc]
  rfl

theorem ident_balanced (name : Ident) : TextBalanced name.chars := by
  refine textBalanced_of_forall fun c hc => ⟨?_, ?_, ?_⟩
  · by_contra h
    have : c = '[' ∨ c = '(' := by simpa [isOpen, or_iff_not_imp_left] using h
    rcases this with rfl | rfl
    · exact notMem_ident (by simp [isIdentChar]) hc
    · exact notMem_ident (by simp [isIdentChar]) hc
  · by_contra h
    have : c = ']' ∨ c = ')' := by simpa [isClose, or_iff_not_imp_left] using h
    rcases this with rfl | rfl
    · exact notMem_ident (by simp [isIdentChar]) hc
    · exact notMem_ident (by simp [isIdentChar]) hc
  · rintro rfl
    exact notMem_ident (by simp [isIdentChar]) hc

/-- A string closes the brackets it opens, and its commas are inside them. -/
theorem encode_balanced (a : Ann) : TextBalanced a.encode := by
  have hnull : TextBalanced ['|', 'n', 'u', 'l', 'l'] := rfl
  induction a using Ann.induction with
  | opt t ih =>
      rw [encode_opt]
      exact textBalanced_append ih hnull
  | chan t ih =>
      rw [encode_chan]
      exact textBalanced_append (s := ['c', 'h', 'a', 'n']) rfl
        (textBalanced_brackets [t.encode] rfl rfl rfl
          fun m hm => List.mem_singleton.mp hm ▸ ih)
  | func params ret ihp ihr =>
      rw [encode_func, show '(' :: joinWith ',' (params.map encode) ++ [')', '-', '>'] =
        '(' :: joinWith ',' (params.map encode) ++ [')'] ++ ['-', '>'] by simp]
      refine textBalanced_append (textBalanced_append (textBalanced_brackets _ rfl rfl rfl ?_)
        rfl) ihr
      intro m hm
      obtain ⟨t, ht, rfl⟩ := List.mem_map.mp hm
      exact ihp t ht
  | base name args alternative nullable star hargs halt =>
      rw [encode_base]
      refine textBalanced_append (textBalanced_append (textBalanced_append (textBalanced_append
        (ident_balanced name) ?_) ?_) ?_) ?_
      · split
        · rfl
        · refine textBalanced_brackets _ rfl rfl rfl fun m hm => ?_
          obtain ⟨t, ht, rfl⟩ := List.mem_map.mp hm
          exact hargs t ht
      · cases alternative with
        | none => rfl
        | some t => exact textBalanced_append (s := ['|']) rfl (halt t rfl)
      · cases nullable
        · rfl
        · exact hnull
      · cases star <;> rfl

end Ann

/-! ### Cutting strings of annotations -/

theorem mem_of_mem_splitTop {opens closes : Char → Bool} {sep c : Char} {s cur m : List Char}
    {d : ℤ} (hm : m ∈ splitTop opens closes sep s cur d) (hc : c ∈ m) : c ∈ cur ∨ c ∈ s := by
  induction s generalizing cur d with
  | nil => exact absurd hm List.not_mem_nil
  | cons a s ih =>
      have hgrow : ∀ {d}, m ∈ splitTop opens closes sep s (cur ++ [a]) d → c ∈ cur ∨ c ∈ a :: s := by
        intro d h
        rcases ih h with h | h
        · rcases List.mem_append.mp h with h | h
          · exact .inl h
          · exact .inr (List.mem_singleton.mp h ▸ List.mem_cons_self)
        · exact .inr (List.mem_cons_of_mem a h)
      rw [splitTop] at hm
      split at hm
      · exact hgrow hm
      · split at hm
        · exact hgrow hm
        · split at hm
          · rcases List.mem_cons.mp hm with rfl | hm
            · exact .inl hc
            · exact .inr (List.mem_cons_of_mem a ((ih hm).resolve_left List.not_mem_nil))
          · exact hgrow hm

theorem trimPart_eq {part : List Char} (h : ∀ c ∈ part, isBlank c = false) :
    trimPart part = part := by
  have hdrop : ∀ {l : List Char}, (∀ c ∈ l, isBlank c = false) → l.dropWhile isBlank = l := by
    intro l hl
    cases l with
    | nil => rfl
    | cons c l => rw [List.dropWhile_cons, hl c List.mem_cons_self]; rfl
  unfold trimPart
  split
  · rfl
  · rw [hdrop h, hdrop fun c hc => h c (List.mem_reverse.mp hc), List.reverse_reverse]

/-- Without blanks there is nothing to trim. -/
theorem splitAtTopLevelCommas_eq {s : List Char} (h : ∀ c ∈ s, isBlank c = false) :
    splitAtTopLevelCommas s = topPieces isOpen isClose ',' s := by
  have htrim : ∀ m ∈ splitTop isOpen isClose ',' (s ++ [',']) [] 0, trimPart m = m := by
    intro m hm
    refine trimPart_eq fun c hc => ?_
    rcases List.mem_append.mp ((mem_of_mem_splitTop hm hc).resolve_left List.not_mem_nil) with h' | h'
    · exact h c h'
    · rw [List.mem_singleton.mp h']
      rfl
  rw [splitAtTopLevelCommas, topPieces, List.map_congr_left htrim, List.map_id']

theorem isBlank_of_mem_joinWith {ts : List Ann} {c : Char}
    (h : c ∈ joinWith ',' (ts.map encode)) : isBlank c = false := by
  rcases mem_joinWith.mp h with ⟨m, hm, hc⟩ | ⟨rfl, -⟩
  · obtain ⟨t, -, rfl⟩ := List.mem_map.mp hm
    exact isBlank_of_mem hc
  · rfl

theorem splitAtTopLevelCommas_joinWith (ts : List Ann) :
    splitAtTopLevelCommas (joinWith ',' (ts.map encode)) = ts.map encode := by
  rw [splitAtTopLevelCommas_eq fun c hc => isBlank_of_mem_joinWith hc]
  refine topPieces_joinWith rfl rfl fun m hm => ?_
  obtain ⟨t, -, rfl⟩ := List.mem_map.mp hm
  exact ⟨encode_balanced t, encode_ne_nil t⟩

theorem length_encode_lt {a t : Ann} (ha : a.Listed) (hlen : 2 ≤ a.members.length)
    (ht : t ∈ a.members) : t.encode.length < a.encode.length := by
  rw [encode_eq_joinWith ha]
  exact (length_le_joinWith '|' (List.mem_map_of_mem ht)).2 (by simpa using hlen)

theorem length_encode_arg {name : Ident} {args : List Ann} {t : Ann} (ht : t ∈ args) :
    t.encode.length < (base name args none false false).encode.length := by
  have hle := (length_le_joinWith ',' (List.mem_map_of_mem (f := encode) ht)).1
  have hne : args ≠ [] := List.ne_nil_of_mem ht
  rw [encode_base, if_neg hne]
  simp only [List.length_append, List.length_cons, Option.map_none, Option.elim_none]
  omega

theorem length_encode_param {params : List Ann} {ret t : Ann} (ht : t ∈ params) :
    t.encode.length < (func params ret).encode.length := by
  have hle := (length_le_joinWith ',' (List.mem_map_of_mem (f := encode) ht)).1
  rw [encode_func]
  simp only [List.length_append, List.length_cons]
  omega

/-! ### Strings cut short -/

/-- A string of an annotation cut short resolves to another type. -/
def CutNe (scope : TypeScope) (a : Ann) : Prop :=
  ∀ q, q <+: a.encode → q ≠ a.encode → resolveTypeName scope q ≠ a.denote scope

/-- A proper prefix of a text with a last character is a prefix of the text before it. -/
theorem prefix_of_proper {s q : List Char} {c : Char} (hq : q <+: s ++ [c]) (hne : q ≠ s ++ [c]) :
    q <+: s := by
  rcases prefix_append_cons hq with h | ⟨r, rfl, hr⟩
  · exact h
  · rw [List.prefix_nil.mp hr] at hne
    exact absurd rfl hne

/-! ### Names and generics -/

/-- The forms of a listed base name. -/
theorem listed_cases {name : Ident} {args : List Ann}
    (ha : (base name args none false false).Listed) :
    args = [] ∨ (name.chars = listName ∧ ∃ t, args = [t]) ∨
      (name.chars = dictName ∧ ∃ k v, args = [k, v]) ∨ (name.chars = tupleName ∧ args ≠ []) := by
  obtain ⟨-, -, -, harity⟩ := listed_base.mp ha
  rcases harity with h | ⟨hn, hl⟩ | ⟨hn, hl⟩ | hn
  · exact .inl h
  · exact .inr (.inl ⟨hn, List.length_eq_one_iff.mp hl⟩)
  · exact .inr (.inr (.inl ⟨hn, List.length_eq_two.mp hl⟩))
  · by_cases h : args = []
    · exact .inl h
    · exact .inr (.inr (.inr ⟨hn, h⟩))

theorem genericType_nil (name : List Char) : genericType scope name [] = resolveName scope name :=
  rfl

theorem genericType_list (t : Ty) : genericType scope listName [t] = .list t := rfl

theorem genericType_dict (k v : Ty) : genericType scope dictName [k, v] = .dict k v := rfl

theorem genericType_tuple {ts : List Ty} (h : ts ≠ []) :
    genericType scope tupleName ts = .tuple ts := by
  unfold genericType
  rw [if_neg h, if_neg (by decide), if_neg (by decide), if_pos rfl]

theorem bare_of_eq {n : List Char} {t : Ty} (h : resolveName scope n = t) : Bare t :=
  h ▸ bare_resolveName scope n

theorem denote_ne_unknown {a : Ann} (ha : a.Listed) : a.denote scope ≠ .unknown := by
  rcases cases_single ha with ⟨name, args, rfl⟩ | ⟨t, rfl⟩ | ⟨params, ret, rfl⟩ | hlen
  · rw [denote_base_none]
    rcases listed_cases ha with rfl | ⟨hn, t, rfl⟩ | ⟨hn, k, v, rfl⟩ | ⟨hn, hne⟩
    · exact fun h => bare_of_eq (n := name.chars) h
    · rw [hn]
      exact Ty.noConfusion
    · rw [hn]
      exact Ty.noConfusion
    · rw [hn, genericType_tuple (by simpa using hne)]
      exact Ty.noConfusion
  · rw [denote_chan]
    exact Ty.noConfusion
  · rw [denote_func]
    exact Ty.noConfusion
  · rw [denote_of_members hlen]
    exact Ty.noConfusion

/-- A name with arguments cut short resolves to a list, dictionary or tuple only as the bare name,
or with its arguments cut short. -/
theorem generic_cut {n args q : List Char} {t : Ty} (hn : '[' ∉ n)
    (hq : q <+: n ++ '[' :: (args ++ [']'])) (hne : q ≠ n ++ '[' :: (args ++ [']']))
    (ht : IsBase t) (hcls : ∀ c, t ≠ .cls c) (h : resolveTypeName scope q = t) :
    resolveName scope q = t ∨ ∃ inner, inner <+: args ∧ inner ≠ args ∧
      resolveGeneric (resolveTypeName scope) n inner = t := by
  obtain ⟨-, hbase⟩ := resolve_eq_base h ht
  rcases resolveBase_cases scope (resolveTypeName scope) q with
    ⟨-, hname⟩ | ⟨b, inner, v, rfl, hb, -, hgen⟩ | ⟨c, hc⟩
  · exact .inl (hname.symm.trans hbase)
  · rcases prefix_append_cons hq with hpre | ⟨r, hr, hrest⟩
    · exact absurd (hpre.subset (by simp)) hn
    · obtain ⟨rfl, rfl⟩ := append_bracket_inj hb hn hr
      have hproper : inner ++ ']' :: v <+: args :=
        prefix_of_proper hrest fun heq => hne (by rw [heq])
      refine .inr ⟨inner, (List.prefix_append _ _).trans hproper, ?_, hgen.symm.trans hbase⟩
      rintro rfl
      have := hproper.length_le
      simp at this
  · exact absurd (hc.symm.trans hbase).symm (hcls c)

theorem encode_generic {name : Ident} {args : List Ann} (h : args ≠ []) :
    (base name args none false false).encode =
      name.chars ++ '[' :: (joinWith ',' (args.map encode) ++ [']']) := by
  rw [encode_base, if_neg h]
  simp

theorem encode_name {name : Ident} : (base name [] none false false).encode = name.chars := by
  simp [encode_base]

theorem bracket_notMem (name : Ident) : '[' ∉ name.chars := notMem_ident (by simp [isIdentChar])

theorem pipe_notMem (name : Ident) : '|' ∉ name.chars := notMem_ident (by simp [isIdentChar])

theorem paren_notMem (name : Ident) : '(' ∉ name.chars := notMem_ident (by simp [isIdentChar])

theorem head_ne_paren {s : List Char} (h : '(' ∉ s) : s.head? ≠ some '(' :=
  fun hh => h (List.mem_of_head? hh)

/-- A name, or part of one, is looked up. -/
theorem resolve_ident {name : Ident} {q : List Char} (hq : q <+: name.chars) :
    resolveTypeName scope q = resolveName scope q :=
  resolve_name (fun h => bracket_notMem name (hq.subset h))
    (head_ne_paren fun h => paren_notMem name (hq.subset h))
    (fun h => pipe_notMem name (hq.subset h))

theorem resolveGeneric_list (f : List Char → Ty) (inner : List Char) :
    resolveGeneric f listName inner = .list (f inner) := rfl

theorem resolveGeneric_dict_cases (f : List Char → Ty) (inner : List Char) :
    (∃ k v, splitAtTopLevelCommas inner = [k, v] ∧
      resolveGeneric f dictName inner = .dict (f k) (f v)) ∨
    resolveGeneric f dictName inner = .cls dictName := by
  rw [resolveGeneric, if_neg (by decide), if_pos rfl]
  split
  · next k v h => exact .inl ⟨k, v, h, rfl⟩
  · exact .inr rfl

theorem resolveGeneric_tuple (f : List Char → Ty) (inner : List Char) :
    resolveGeneric f tupleName inner = .tuple ((splitAtTopLevelCommas inner).map f) := by
  rw [resolveGeneric, if_neg (by decide), if_neg (by decide), if_pos rfl]

/-- The pieces of arguments cut short are not read as the arguments. -/
theorem pieces_cut {args : List Ann} (hcut : ∀ t ∈ args, CutNe scope t) {inner : List Char}
    (hpre : inner <+: joinWith ',' (args.map encode))
    (hmap : (splitAtTopLevelCommas inner).map (resolveTypeName scope) = args.map (denote scope)) :
    inner = joinWith ',' (args.map encode) := by
  rw [splitAtTopLevelCommas_eq fun c hc => isBlank_of_mem_joinWith (hpre.subset hc)] at hmap
  exact (topPieces_cut rfl rfl (fun t _ => ⟨encode_balanced t, encode_ne_nil t⟩) hcut hpre
    hmap).1

theorem cutNe_base {name : Ident} {args : List Ann}
    (ha : (base name args none false false).Listed) (hcut : ∀ t ∈ args, CutNe scope t) :
    CutNe scope (base name args none false false) := by
  intro q hq hne h
  obtain ⟨-, hlisted, -, -⟩ := listed_base.mp ha
  rw [denote_base_none] at h
  rcases listed_cases ha with rfl | ⟨hn, t, rfl⟩ | ⟨hn, k, v, rfl⟩ | ⟨hn, hargs⟩
  · -- names are looked up, and different names differ
    rw [encode_name] at hq hne
    rw [resolve_ident hq] at h
    exact hne (resolveName_injective h)
  · rw [encode_generic (by simp)] at hq hne
    rw [hn, List.map_singleton, genericType_list] at h
    rcases generic_cut (bracket_notMem name) hq hne (by trivial)
      (fun _ => Ty.noConfusion) h with
      hname | ⟨inner, hpre, hinner, hgen⟩
    · exact denote_ne_unknown (hlisted t (by simp)) (bare_of_eq hname)
    · rw [hn, resolveGeneric_list] at hgen
      exact hcut t (by simp) inner hpre hinner (Ty.list.inj hgen)
  · rw [encode_generic (by simp)] at hq hne
    rw [hn, List.map_cons, List.map_singleton, genericType_dict] at h
    rcases generic_cut (bracket_notMem name) hq hne (by trivial)
      (fun _ => Ty.noConfusion) h with
      hname | ⟨inner, hpre, hinner, hgen⟩
    · exact denote_ne_unknown (hlisted k (by simp)) (bare_of_eq hname)
    · rw [hn] at hgen
      rcases resolveGeneric_dict_cases (resolveTypeName scope) inner with
        ⟨k', v', hsplit, hdict⟩ | hclass
      · obtain ⟨hk, hv⟩ := Ty.dict.inj (hdict.symm.trans hgen)
        exact hinner (pieces_cut hcut hpre (by rw [hsplit]; simp [hk, hv]))
      · exact Ty.noConfusion (hclass.symm.trans hgen)
  · rw [encode_generic hargs] at hq hne
    rw [hn, genericType_tuple (by simpa using hargs)] at h
    rcases generic_cut (bracket_notMem name) hq hne (by trivial)
      (fun _ => Ty.noConfusion) h with
      hname | ⟨inner, hpre, hinner, hgen⟩
    · exact hargs (List.map_eq_nil_iff.mp (bare_of_eq hname))
    · rw [hn, resolveGeneric_tuple] at hgen
      exact hinner (pieces_cut hcut hpre (Ty.tuple.inj hgen))

theorem cutNe_chan {t : Ann} (hcut : CutNe scope t) : CutNe scope (chan t) := by
  intro q hq hne h
  rw [denote_chan] at h
  obtain ⟨s, rfl, hs⟩ := resolve_eq_chan h
  rw [encode_chan, List.append_assoc, List.append_assoc] at hq hne
  rw [List.prefix_append_right_inj] at hq
  have hproper : s ++ [']'] <+: t.encode := prefix_of_proper hq fun heq => hne (by rw [heq])
  refine hcut s ((List.prefix_append _ _).trans hproper) ?_ hs
  rintro rfl
  have := hproper.length_le
  simp at this

/-- Where the checker finds the end of the parameters, when they are read as the parameters. -/
theorem func_parts {params : List Ann} {ret : Ann} (hcut : ∀ t ∈ params, CutNe scope t)
    {q paramPart retPart : List Char} (hq : q <+: (func params ret).encode)
    (hparts : functionParts q = some (paramPart, retPart))
    (hmap : (splitAll ',' paramPart).map (resolveTypeName scope) = params.map (denote scope)) :
    paramPart = joinWith ',' (params.map encode) ∧ retPart <+: ret.encode ∧
      q = '(' :: paramPart ++ [')', '-', '>'] ++ retPart ∧
      ∀ t ∈ params, ',' ∉ t.encode ∧ resolveTypeName scope t.encode = t.denote scope := by
  obtain ⟨rest, i, rfl, hfind, rfl, rfl⟩ := functionParts_eq_some hparts
  rw [encode_func, List.append_assoc] at hq
  obtain ⟨htake, hdrop⟩ := find_prefix hq hfind
  obtain ⟨hpre, hle, -⟩ := find_spec hfind
  have hi : 0 < i := by
    rcases Nat.eq_zero_or_pos i with rfl | hi
    · rw [List.drop_zero] at hpre
      exact absurd (List.cons_prefix_cons.mp hpre).1 (by decide)
    · exact hi
  obtain ⟨j, rfl⟩ : ∃ j, i = j + 1 := ⟨i - 1, by omega⟩
  have hsub : substr ('(' :: rest) 1 (j + 1 - 1) = rest.take j := by simp [substr]
  rw [hsub] at hmap ⊢
  rw [List.take_succ_cons] at htake hdrop
  obtain ⟨hall, heach⟩ := splitAll_cut hcut (List.cons_prefix_cons.mp htake).2 hmap
  refine ⟨hall, hdrop (by rw [hall]), ?_, heach⟩
  obtain ⟨w, hw⟩ := hpre
  have hjoin : '(' :: rest.take j = ('(' :: rest).take (j + 1) := rfl
  have hret : ('(' :: rest).drop (j + 1 + 3) = w := by
    rw [← List.drop_drop, ← hw]
    rfl
  rw [hret, hjoin, List.append_assoc, hw, List.take_append_drop]

theorem cutNe_func {params : List Ann} {ret : Ann} (hcut : ∀ t ∈ params, CutNe scope t)
    (hret : CutNe scope ret) : CutNe scope (func params ret) := by
  intro q hq hne h
  rw [denote_func] at h
  obtain ⟨paramPart, retPart, hparts, hr, hmap⟩ := resolve_eq_func h
  obtain ⟨rfl, hpre, rfl, -⟩ := func_parts hcut hq hparts hmap
  rw [encode_func] at hne
  exact hret retPart hpre (fun heq => hne (by rw [heq])) hr

theorem cutNe_union {a : Ann} (ha : a.Listed) (hlen : 2 ≤ a.members.length)
    (hcut : ∀ t ∈ a.members, CutNe scope t) : CutNe scope a := by
  intro q hq hne h
  rw [denote_of_members hlen] at h
  obtain ⟨-, hmap⟩ := resolve_eq_union h
  rw [encode_eq_joinWith ha] at hq hne
  exact hne (splitAll_cut hcut hq hmap).1

/-- **Strings cut short.**  No proper prefix of the string of an annotation resolves to its type.
By induction on the length of the string: the members of a union are not parts of its tree. -/
theorem cut_ne {a : Ann} (ha : a.Listed) : CutNe scope a := by
  induction hn : a.encode.length using Nat.strong_induction_on generalizing a with
  | _ n ih =>
      subst hn
      rcases cases_single ha with ⟨name, args, rfl⟩ | ⟨t, rfl⟩ | ⟨params, ret, rfl⟩ | hlen
      · exact cutNe_base ha fun t ht =>
          ih _ (length_encode_arg ht) ((listed_base.mp ha).2.1 t ht) rfl
      · refine cutNe_chan (ih _ ?_ (listed_chan.mp ha) rfl)
        simp [encode_chan]
        omega
      · refine cutNe_func (fun t ht => ih _ (length_encode_param ht) ((listed_func.mp ha).1 t ht) rfl)
          (ih _ ?_ (listed_func.mp ha).2 rfl)
        simp [encode_func]
        omega
      · exact cutNe_union ha hlen fun t ht =>
          ih _ (length_encode_lt ha hlen ht) (listed_of_mem_members ha ht) rfl

end Visuall.Types
