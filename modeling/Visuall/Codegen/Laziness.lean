import Visuall.Lib.SsaBranches
import Visuall.Codegen.Values

/-!
# Lazy operators

The blocks that `codegenBinaryExpr` emits for `and`, `or` and `??`, and `codegenTernaryExpr` for the ternary
(`src/codegen.cpp`), where the operands are any code.  The slot of a `??`, written in two blocks and read behind them, is a phi,
and the conversions of a ternary, inserted in front of the branches, are the last instructions of its parts.

* `Operands` — the code of the operands, and what it does;
* `codegenExpr` — what is emitted, if that is valid code for the types at hand: `map_codegenExpr`;
* `emitted` — what it does: `codegenExpr_compiles`;
* `lazy` — what is meant: `lazy_inOrder`;
* `Exact` — that the code does it; `lazy_and_exact_iff` — exactly where it does throughout an expression.
-/

namespace Visuall.Codegen.Laziness

open Ssa

variable {ι O W : Type}

/-! ## Operations -/

/-- The operations of the lowering, and those in the code of operands. -/
inductive Op (O : Type)
  | icmpNe
  | fcmpOne
  | icmpEq
  | ptrToInt
  | zext
  | siToFP
  | uiToFP
  | other (op : O)

/-- The world, and the operands that have been evaluated. -/
abbrev Sys (ι W : Type) := W × List ι

def bool (b : Bool) : Value := ⟨.int 1, BitVec.ofBool b⟩

/-- `fcmp one` with `0.0`: the number is neither zero nor `NaN`. -/
def orderedNonzero (bits : ℕ) : Bool := 0 < bits % 2 ^ 63 && bits % 2 ^ 63 ≤ 0x7ff0000000000000

/-- `toBool` of a value. -/
def truthy (v : Value) : Bool := if v.type = .double then orderedNonzero v.bits.toNat else v.bits.toNat ≠ 0

/-- The value as a word: `ptrtoint` and `zext`. -/
def word (v : Value) : Value := ⟨.i64, BitVec.ofNat 64 v.bits.toNat⟩

variable (sem : O → List Value → Sys ι W → Option (Value × Sys ι W)) (toDouble : ℤ → Word)

/-- `promoteToDouble`: a bool is unsigned. -/
def asDouble (v : Value) : Value :=
  if v.type = .int 1 then ⟨.double, toDouble v.bits.toNat⟩ else ⟨.double, toDouble v.bits.toInt⟩

/-- What operations do; `toDouble` is the rounding of integers, and `sem` is about the operands' own operations. -/
def semantics : Semantics Value (Op O) (Sys ι W) where
  apply
    | .icmpNe, [v], s => some (bool (v.bits.toNat ≠ 0), s)
    | .fcmpOne, [v], s => some (bool (orderedNonzero v.bits.toNat), s)
    | .icmpEq, [v], s => some (bool (v.bits.toNat = 0), s)
    | .ptrToInt, [v], s => some (word v, s)
    | .zext, [v], s => some (word v, s)
    | .siToFP, [v], s => some (⟨.double, toDouble v.bits.toInt⟩, s)
    | .uiToFP, [v], s => some (⟨.double, toDouble v.bits.toNat⟩, s)
    | .other op, values, s => sem op values s
    | _, _, _ => none
  truth v := if v.type = .int 1 then some (v.bits.toNat ≠ 0) else none

/-! ## Expressions -/

/-- A value that the program holds, and whether it is `null`; that is zero, as other values may be. -/
structure Held where
  value : Value
  null : Bool
  zero : null = true → value.bits.toNat = 0

/-- The operands: their types, the code that is emitted for them, and what evaluating them does, if it comes to an end. -/
structure Operands (ι O W : Type) where
  sem : O → List Value → Sys ι W → Option (Value × Sys ι W)
  toDouble : ℤ → Word
  type : ι → LTy
  emit : ι → Ssa.Emitter Value (Op O)
  run : ι → W → Option (Held × W)
  typed : ∀ i w h w', run i w = some (h, w') → h.value.type = type i
  builds : ∀ i, Builds [] (emit i)
  means : ∀ i, Means (semantics sem toDouble) [] (emit i) fun s => (run i s.1).map fun r => (r.1.value, r.2, s.2 ++ [i])

/-- The expressions over operands. -/
inductive Expr (ι : Type)
  | operand (i : ι)
  | and (left right : Expr ι)
  | or (left right : Expr ι)
  | nullCoalesce (left right : Expr ι)
  | ternary (condition thenExpr elseExpr : Expr ι)

/-- The instruction of `toBool`, if there is one; a closure has none. -/
def toBool : LTy → Option (Option (Op O))
  | .int width => some (if width = 1 then none else some .icmpNe)
  | .i64 | .ptr => some (some .icmpNe)
  | .double => some (some .fcmpOne)
  | .closure => none

/-- The instruction that makes an operand of `??` an `i64`, if there is one; there is no valid one for floats and closures. -/
def toI64 : LTy → Option (Option (Op O))
  | .i64 => some none
  | .ptr => some (some .ptrToInt)
  | .int _ => some (some .zext)
  | .double | .closure => none

/-- The instruction of `promoteToDouble`, if there is one; there is no valid one for pointers and closures. -/
def promoteToDouble : LTy → Option (Option (Op O))
  | .double => some none
  | .i64 => some (some .siToFP)
  | .int width => some (some (if width = 1 then .uiToFP else .siToFP))
  | .ptr | .closure => none

/-- The type of the phi of a ternary, and the conversions of the two values; a phi of other types is not valid. -/
def unifyTypes (thenTy elseTy : LTy) : Option (LTy × Option (Op O) × Option (Op O)) :=
  if thenTy = elseTy then some (thenTy, none, none)
  else if thenTy = .double then (promoteToDouble elseTy).map fun conv => (.double, none, conv)
  else if elseTy = .double then (promoteToDouble thenTy).map fun conv => (.double, conv, none)
  else none

variable (Ω : Operands ι O W)

/-- `codegenExpr`: the type of the value, and what is emitted; `none` where that is no valid code. -/
def codegenExpr : Expr ι → Option (LTy × Ssa.Emitter Value (Op O))
  | .operand i => some (Ω.type i, Ω.emit i)
  | .and left right => do
    let (leftTy, l) ← codegenExpr left
    let lhsBool ← toBool leftTy
    let (rightTy, r) ← codegenExpr right
    let rhsBool ← toBool rightTy
    some (.int 1, shortCircuit true (.const (bool false)) (seq l (emitConvert lhsBool)) (seq r (emitConvert rhsBool)))
  | .or left right => do
    let (leftTy, l) ← codegenExpr left
    let lhsBool ← toBool leftTy
    let (rightTy, r) ← codegenExpr right
    let rhsBool ← toBool rightTy
    some (.int 1, shortCircuit false (.const (bool true)) (seq l (emitConvert lhsBool)) (seq r (emitConvert rhsBool)))
  | .nullCoalesce left right => do
    let (leftTy, l) ← codegenExpr left
    let (rightTy, r) ← codegenExpr right
    let l64 ← toI64 leftTy
    let r64 ← toI64 rightTy
    some (.i64, seq l fun x => seq r fun y => seq (emitConvert l64 x) fun x =>
      shortCircuit true x (emitInstr .icmpEq [x]) (emitConvert r64 y))
  | .ternary condition thenExpr elseExpr => do
    let (condTy, c) ← codegenExpr condition
    let condBool ← toBool condTy
    let (thenTy, t) ← codegenExpr thenExpr
    let (elseTy, e) ← codegenExpr elseExpr
    let (phiTy, thenConv, elseConv) ← unifyTypes thenTy elseTy
    some (phiTy, seq (seq c (emitConvert condBool)) fun x =>
      choose x (seq t (emitConvert thenConv)) (seq e (emitConvert elseConv)))

/-! ## What is emitted -/

/-- A value where it is joined with another one: as a float, if that is the type of the two. -/
def joined (ty : Option LTy) (v : Value) : Value :=
  if ty = some .double ∧ v.type ≠ .double then asDouble Ω.toDouble v else v

/-- Types whose values are tested by `toBool`. -/
def testable : LTy → Bool
  | .closure => false
  | _ => true

/-- Types whose values are made an `i64` by `ptrtoint` or `zext`. -/
def wordlike : LTy → Bool
  | .double | .closure => false
  | _ => true

/-- Types whose values are made floats by `sitofp` or `uitofp`. -/
def numeric : LTy → Bool
  | .i64 | .int _ => true
  | _ => false

/-- The type of two values that are joined. -/
def joinTy (thenTy elseTy : LTy) : Option LTy :=
  if thenTy = elseTy then some thenTy
  else if thenTy = .double then if numeric elseTy then some .double else none
  else if elseTy = .double then if numeric thenTy then some .double else none
  else none

/-- The type of the value of an expression, from those of the operands, if there is valid code for them. -/
def typeOf : Expr ι → Option LTy
  | .operand i => some (Ω.type i)
  | .and left right | .or left right =>
    (typeOf left).bind fun leftTy => (typeOf right).bind fun rightTy =>
      if testable leftTy ∧ testable rightTy then some (.int 1) else none
  | .nullCoalesce left right =>
    (typeOf left).bind fun leftTy => (typeOf right).bind fun rightTy =>
      if wordlike leftTy ∧ wordlike rightTy then some .i64 else none
  | .ternary condition thenExpr elseExpr =>
    (typeOf condition).bind fun condTy => (typeOf thenExpr).bind fun thenTy => (typeOf elseExpr).bind fun elseTy =>
      if testable condTy then joinTy thenTy elseTy else none

/-- What the emitted code does. -/
def emitted : Expr ι → Sys ι W → Option (Value × Sys ι W)
  | .operand i, s => (Ω.run i s.1).map fun r => (r.1.value, r.2, s.2 ++ [i])
  | .and left right, s =>
    (emitted left s).bind fun p =>
      if truthy p.1 = true then (emitted right p.2).map fun q => (bool (truthy q.1), q.2) else some (bool false, p.2)
  | .or left right, s =>
    (emitted left s).bind fun p =>
      if truthy p.1 = false then (emitted right p.2).map fun q => (bool (truthy q.1), q.2) else some (bool true, p.2)
  | .nullCoalesce left right, s =>
    (emitted left s).bind fun p => (emitted right p.2).map fun q => (if p.1.bits.toNat = 0 then word q.1 else word p.1, q.2)
  | .ternary condition thenExpr elseExpr, s =>
    let ty := typeOf Ω (.ternary condition thenExpr elseExpr)
    (emitted condition s).bind fun p =>
      (if truthy p.1 = true then emitted thenExpr p.2 else emitted elseExpr p.2).map fun q => (joined Ω ty q.1, q.2)

/-! ## The conversions -/

section Conversions

variable {sem : O → List Value → Sys ι W → Option (Value × Sys ι W)} {toDouble : ℤ → Word} {v : Value} {conv : Option (Op O)}

theorem truthy_of_ne {v : Value} (h : v.type ≠ .double) : truthy v = decide (v.bits.toNat ≠ 0) := if_neg h

theorem bool_bits (b : BitVec 1) : BitVec.ofBool (decide (b.toNat ≠ 0)) = b := by
  revert b
  decide

theorem truth_bool (b : Bool) : (semantics sem toDouble : Semantics Value (Op O) (Sys ι W)).truth (bool b) = some b := by
  cases b <;> rfl

/-- `toBool` gives whether a value is true. -/
theorem convert_toBool (h : toBool v.type = some conv) (s : Sys ι W) :
    convert (semantics sem toDouble) conv v s = some (bool (truthy v), s) := by
  obtain ⟨type, bits⟩ := v
  cases type with
  | closure => cases h
  | double =>
    cases h
    rfl
  | int width =>
    have hne : LTy.int width ≠ .double := nofun
    rw [truthy_of_ne hne]
    by_cases hw : width = 1
    · subst hw
      cases h
      exact congrArg (fun bits => some (Value.mk (.int 1) bits, s)) (bool_bits bits).symm
    · have hconv : conv = some .icmpNe := by
        simpa [toBool, hw] using h.symm
      subst hconv
      rfl
  | i64 | ptr =>
    cases h
    rfl

/-- An operand of `??` is taken as a word. -/
theorem convert_toI64 (h : toI64 v.type = some conv) (s : Sys ι W) :
    convert (semantics sem toDouble) conv v s = some (word v, s) := by
  obtain ⟨type, bits⟩ := v
  cases type with
  | double | closure => cases h
  | i64 =>
    cases h
    have hbits : bits = BitVec.ofNat 64 bits.toNat := (BitVec.ofNat_toNat 64 bits).symm ▸ (BitVec.setWidth_eq bits).symm
    exact congrArg (fun bits => some (Value.mk .i64 bits, s)) hbits
  | ptr | int =>
    cases h
    rfl

theorem convert_promoteToDouble (h : promoteToDouble v.type = some conv) (s : Sys ι W) :
    convert (semantics sem toDouble) conv v s = some (if v.type ≠ .double then asDouble toDouble v else v, s) := by
  obtain ⟨type, bits⟩ := v
  cases type with
  | ptr | closure => cases h
  | double =>
    cases h
    rfl
  | i64 =>
    cases h
    rfl
  | int width =>
    by_cases hw : width = 1
    · subst hw
      cases h
      rfl
    · have hconv : conv = some .siToFP := by
        simpa [promoteToDouble, hw] using h.symm
      subst hconv
      have hne : LTy.int width ≠ .int 1 := fun heq => hw (LTy.int.inj heq)
      have hne' : LTy.int width ≠ .double := nofun
      rw [if_pos hne', asDouble, if_neg hne]
      rfl

/-- Two values are joined as what the two types make them. -/
theorem convert_unifyTypes {Ω : Operands ι O W} {thenTy elseTy ty : LTy} {thenConv elseConv : Option (Op O)}
    (h : unifyTypes thenTy elseTy = some (ty, thenConv, elseConv)) (s : Sys ι W) :
    (v.type = thenTy → convert (semantics Ω.sem Ω.toDouble) thenConv v s = some (joined Ω (some ty) v, s)) ∧
      (v.type = elseTy → convert (semantics Ω.sem Ω.toDouble) elseConv v s = some (joined Ω (some ty) v, s)) := by
  unfold unifyTypes at h
  split_ifs at h with heq hthen helse
  · cases h
    have hv : v.type = thenTy → joined Ω (some thenTy) v = v := by
      rintro rfl
      exact if_neg fun ⟨hty, hne⟩ => hne (Option.some_inj.mp hty)
    exact ⟨fun ht => congrArg (fun v => some (v, s)) (hv ht).symm,
      fun ht => congrArg (fun v => some (v, s)) (hv (ht.trans heq.symm)).symm⟩
  · obtain ⟨conv, hconv, hsome⟩ := Option.map_eq_some_iff.mp h
    cases hsome
    refine ⟨fun ht => ?_, fun ht => ?_⟩
    · have hjoined : joined Ω (some .double) v = v := if_neg fun hne => hne.2 (ht.trans hthen)
      rw [hjoined]
      rfl
    · rw [convert_promoteToDouble (by rw [ht]; exact hconv)]
      simp only [joined, true_and]
  · obtain ⟨conv, hconv, hsome⟩ := Option.map_eq_some_iff.mp h
    cases hsome
    refine ⟨fun ht => ?_, fun ht => ?_⟩
    · rw [convert_promoteToDouble (by rw [ht]; exact hconv)]
      simp only [joined, true_and]
    · have hjoined : joined Ω (some .double) v = v := if_neg fun hne => hne.2 (ht.trans helse)
      rw [hjoined]
      rfl

theorem type_asDouble (v : Value) : (asDouble toDouble v).type = .double := by
  unfold asDouble
  split_ifs <;> rfl

theorem type_joined {Ω : Operands ι O W} {thenTy elseTy ty : LTy} {convs : Option (Op O) × Option (Op O)}
    (h : unifyTypes thenTy elseTy = some (ty, convs)) (hv : v.type = thenTy ∨ v.type = elseTy) :
    (joined Ω (some ty) v).type = ty := by
  have hdouble : (joined Ω (some .double) v).type = .double := by
    unfold joined
    split_ifs with hne
    · exact type_asDouble v
    · exact not_not.mp fun hv => hne ⟨rfl, hv⟩
  unfold unifyTypes at h
  split_ifs at h with heq hthen helse
  · cases h
    subst heq
    have hty := hv.elim id id
    have hjoined : joined Ω (some thenTy) v = v := if_neg fun ⟨hdouble, hne⟩ => hne (hty.trans (Option.some_inj.mp hdouble))
    rw [hjoined, hty]
  · obtain ⟨conv, _, hsome⟩ := Option.map_eq_some_iff.mp h
    cases hsome
    exact hdouble
  · obtain ⟨conv, _, hsome⟩ := Option.map_eq_some_iff.mp h
    cases hsome
    exact hdouble

theorem truthy_bool (b : Bool) : truthy (bool b) = b := by
  cases b <;> rfl

/-- A word is zero as the value is that it is made from. -/
theorem bits_word (h : (toI64 (O := O) v.type).isSome) : (word v).bits.toNat = v.bits.toNat := by
  obtain ⟨type, bits⟩ := v
  cases type with
  | double | closure => cases h
  | i64 | ptr => exact Nat.mod_eq_of_lt bits.isLt
  | int width =>
    have hlt : bits.toNat < 2 ^ (width : ℕ) := bits.isLt
    have hle : 2 ^ (width : ℕ) ≤ 2 ^ 64 := Nat.pow_le_pow_right Nat.two_pos width.isLt.le
    exact Nat.mod_eq_of_lt (hlt.trans_le hle)

end Conversions

/-! ## The code does it -/

/-! ## Types -/

section Types

variable {Ω}

theorem toBool_eq (ty : LTy) : ∃ conv : Option (Op O), toBool ty = if testable ty then some conv else none := by
  cases ty with
  | closure => exact ⟨none, rfl⟩
  | _ => exact ⟨_, rfl⟩

theorem toI64_eq (ty : LTy) : ∃ conv : Option (Op O), toI64 ty = if wordlike ty then some conv else none := by
  cases ty with
  | double | closure => exact ⟨none, rfl⟩
  | _ => exact ⟨_, rfl⟩

theorem promoteToDouble_eq {ty : LTy} (h : ty ≠ .double) :
    ∃ conv : Option (Op O), promoteToDouble ty = if numeric ty then some conv else none := by
  cases ty with
  | double => exact absurd rfl h
  | ptr | closure => exact ⟨none, rfl⟩
  | _ => exact ⟨_, rfl⟩

theorem unifyTypes_eq (thenTy elseTy : LTy) :
    ∃ convs : Option (Op O) × Option (Op O), unifyTypes thenTy elseTy = (joinTy thenTy elseTy).map fun ty => (ty, convs) := by
  unfold unifyTypes joinTy
  split_ifs with heq hthen hnumeric helse hnumeric
  · exact ⟨_, rfl⟩
  · obtain ⟨conv, hconv⟩ := promoteToDouble_eq (O := O) fun hty : elseTy = .double => heq (hthen.trans hty.symm)
    exact ⟨(none, conv), by rw [hconv, if_pos hnumeric]; rfl⟩
  · obtain ⟨conv, hconv⟩ := promoteToDouble_eq (O := O) fun hty : elseTy = .double => heq (hthen.trans hty.symm)
    exact ⟨(none, conv), by rw [hconv, if_neg hnumeric]; rfl⟩
  · obtain ⟨conv, hconv⟩ := promoteToDouble_eq (O := O) hthen
    exact ⟨(conv, none), by rw [hconv, if_pos hnumeric]; rfl⟩
  · obtain ⟨conv, hconv⟩ := promoteToDouble_eq (O := O) hthen
    exact ⟨(conv, none), by rw [hconv, if_neg hnumeric]; rfl⟩
  · exact ⟨(none, none), rfl⟩

/-- **There is code** for an expression if the types of its operands allow it, by induction on the expression. -/
theorem map_codegenExpr (e : Expr ι) : (codegenExpr Ω e).map Prod.fst = typeOf Ω e := by
  induction e with
  | operand i => rfl
  | and left right ihl ihr | or left right ihl ihr =>
    rw [typeOf, ← ihl, ← ihr, codegenExpr]
    cases codegenExpr Ω left with
    | none => rfl
    | some p =>
      obtain ⟨conv, hconv⟩ := toBool_eq (O := O) p.1
      cases codegenExpr Ω right with
      | none => simp
      | some q =>
        obtain ⟨conv', hconv'⟩ := toBool_eq (O := O) q.1
        simp only [Option.bind_eq_bind, Option.bind_some, Option.map_some, hconv, hconv']
        split_ifs <;> simp_all
  | nullCoalesce left right ihl ihr =>
    rw [typeOf, ← ihl, ← ihr, codegenExpr]
    cases codegenExpr Ω left with
    | none => rfl
    | some p =>
      obtain ⟨conv, hconv⟩ := toI64_eq (O := O) p.1
      cases codegenExpr Ω right with
      | none => rfl
      | some q =>
        obtain ⟨conv', hconv'⟩ := toI64_eq (O := O) q.1
        simp only [Option.bind_eq_bind, Option.bind_some, Option.map_some, hconv, hconv']
        split_ifs <;> simp_all
  | ternary condition thenExpr elseExpr ihc iht ihe =>
    rw [typeOf, ← ihc, ← iht, ← ihe, codegenExpr]
    cases codegenExpr Ω condition with
    | none => rfl
    | some p =>
      obtain ⟨conv, hconv⟩ := toBool_eq (O := O) p.1
      cases codegenExpr Ω thenExpr with
      | none => simp
      | some q =>
        cases codegenExpr Ω elseExpr with
        | none => simp
        | some r =>
          obtain ⟨convs, hconvs⟩ := unifyTypes_eq (O := O) q.1 r.1
          simp only [Option.bind_eq_bind, Option.bind_some, Option.map_some, hconv, hconvs]
          cases joinTy q.1 r.1 <;> split_ifs <;> rfl

end Types

section Compiles

variable {Ω}

variable (Ω) in
/-- Code for an expression. -/
structure Compiles (e : Expr ι) (ty : LTy) (em : Ssa.Emitter Value (Op O)) : Prop where
  builds : Builds [] em
  means : Means (semantics Ω.sem Ω.toDouble) [] em (emitted Ω e)
  typed : ∀ s v s', emitted Ω e s = some (v, s') → v.type = ty

/-- The code of an operand whose value is tested. -/
theorem Compiles.test {e : Expr ι} {ty : LTy} {em : Ssa.Emitter Value (Op O)} {conv : Option (Op O)} (h : Compiles Ω e ty em)
    (hconv : toBool ty = some conv) :
    Builds [] (seq em (emitConvert conv)) ∧ Means (semantics Ω.sem Ω.toDouble) [] (seq em (emitConvert conv)) fun s =>
      (emitted Ω e s).bind fun p => some (bool (truthy p.1), p.2) := by
  refine ⟨h.builds.seq (Builds.convert conv), h.means.seq h.builds (Builds.convert conv) (n := fun v s => some (bool (truthy v), s)) ?_⟩
  rintro x v ⟨s, s', hv⟩
  have hmeans := Means.convert (S := semantics Ω.sem Ω.toDouble) conv x v
  have hconverted : convert (semantics Ω.sem Ω.toDouble) conv v = fun s => some (bool (truthy v), s) :=
    funext fun s => convert_toBool (by rw [h.typed _ _ _ hv]; exact hconv) s
  rwa [hconverted] at hmeans

/-- `and` and `or`: the right operand is evaluated where the left one is `b`. -/
theorem Compiles.shortCircuit {e left right : Expr ι} {leftTy rightTy : LTy} {l r : Ssa.Emitter Value (Op O)}
    {lhsBool rhsBool : Option (Op O)} (hl : Compiles Ω left leftTy l) (hr : Compiles Ω right rightTy r)
    (hlhs : toBool leftTy = some lhsBool) (hrhs : toBool rightTy = some rhsBool) (b : Bool)
    (he : ∀ s, emitted Ω e s = (emitted Ω left s).bind fun p =>
      if truthy p.1 = b then (emitted Ω right p.2).map fun q => (bool (truthy q.1), q.2) else some (bool !b, p.2)) :
    Compiles Ω e (.int 1) (shortCircuit b (.const (bool !b)) (seq l (emitConvert lhsBool)) (seq r (emitConvert rhsBool))) := by
  obtain ⟨hbuildsl, hmeansl⟩ := hl.test hlhs
  obtain ⟨hbuildsr, hmeansr⟩ := hr.test hrhs
  refine ⟨hbuildsl.shortCircuit hbuildsr _ _, ?_, ?_⟩
  · have htruth : ∀ s v s', ((emitted Ω left s).bind fun p => some (bool (truthy p.1), p.2)) = some (v, s') →
        (semantics Ω.sem Ω.toDouble).truth v = some (truthy v) := by
      intro s v s' hv
      obtain ⟨p, _, hp⟩ := Option.bind_eq_some_iff.mp hv
      cases hp
      rw [truth_bool, truthy_bool]
    have hother : ∀ regs : ℕ → Option Value, (∀ p ∈ ([] : List (Operand Value × Value)), p.1.value regs = some p.2) →
        (Operand.const (bool !b)).value regs = some (bool !b) := fun _ _ => rfl
    have hmeans := hmeansl.shortCircuit hmeansr hbuildsl hbuildsr b hother htruth
    have heq : emitted Ω e = fun s => ((emitted Ω left s).bind fun p => some (bool (truthy p.1), p.2)).bind fun r =>
        if truthy r.1 = b then (emitted Ω right r.2).bind fun p => some (bool (truthy p.1), p.2) else some (bool !b, r.2) := by
      funext s
      rw [he, Option.bind_assoc]
      simp only [Option.bind_some, truthy_bool, Option.map_eq_bind, Function.comp_def]
    rwa [heq]
  · intro s v s' hv
    rw [he] at hv
    obtain ⟨p, _, hp⟩ := Option.bind_eq_some_iff.mp hv
    split_ifs at hp
    · obtain ⟨q, _, hq⟩ := Option.map_eq_some_iff.mp hp
      cases hq
      rfl
    · cases hp
      rfl

/-- The test of a `??` whose operands are known, and the join. -/
theorem means_orElse {x y : Operand Value} {v w : Value} {l64 r64 : Option (Op O)} (hv : toI64 v.type = some l64)
    (hw : toI64 w.type = some r64) :
    Means (semantics Ω.sem Ω.toDouble) [(x, word v), (y, w)] (shortCircuit true x (emitInstr .icmpEq [x]) (emitConvert r64 y))
      fun s => some (if v.bits.toNat = 0 then word w else word v, s) := by
  have hbits : (word v).bits.toNat = v.bits.toNat := bits_word (by rw [hv]; rfl)
  have htest : Means (semantics Ω.sem Ω.toDouble) [(x, word v), (y, w)] (emitInstr .icmpEq [x])
      fun s => some (bool (v.bits.toNat = 0), s) := by
    have hargs : List.Forall₂ (fun x' v' => (x', v') ∈ [(x, word v), (y, w)]) [x] [word v] := .cons List.mem_cons_self .nil
    have hmeans : Means (semantics Ω.sem Ω.toDouble) _ (emitInstr .icmpEq [x]) _ := Means.instr hargs
    have happly : (semantics Ω.sem Ω.toDouble).apply .icmpEq [word v] = fun s => some (bool (v.bits.toNat = 0), s) :=
      funext fun s => by rw [← hbits]; rfl
    rwa [happly] at hmeans
  have hconvert : Means (semantics Ω.sem Ω.toDouble) [(x, word v), (y, w)] (emitConvert r64 y) fun s => some (word w, s) := by
    have hmeans := (Means.convert (S := semantics Ω.sem Ω.toDouble) r64 y w).mono (List.subset_cons_self (x, word v) _)
    rwa [show convert (semantics Ω.sem Ω.toDouble) r64 w = fun s => some (word w, s) from funext fun s => convert_toI64 hw s]
      at hmeans
  have htruth : ∀ (s : Sys ι W) (u : Value) (s' : Sys ι W), some (bool (v.bits.toNat = 0), s) = some (u, s') →
      (semantics Ω.sem Ω.toDouble).truth u = some (truthy u) := by
    rintro s u s' ⟨⟩
    rw [truth_bool, truthy_bool]
  have hmeans := htest.shortCircuit hconvert (Builds.instr _ _ _) ((Builds.convert r64 y).mono (List.subset_cons_self x _)) true
    (fun regs hknown => hknown (x, word v) List.mem_cons_self) htruth
  have heq : (fun s : Sys ι W => some (if v.bits.toNat = 0 then word w else word v, s)) = fun s =>
      if v.bits.toNat = 0 then some (word w, s) else some (word v, s) := by
    funext s
    split_ifs <;> rfl
  rw [heq]
  simpa only [Option.bind_some, truthy_bool, decide_eq_true_eq] using hmeans

theorem Compiles.nullCoalesce {left right : Expr ι} {leftTy rightTy : LTy} {l r : Ssa.Emitter Value (Op O)}
    {l64 r64 : Option (Op O)} (hl : Compiles Ω left leftTy l) (hr : Compiles Ω right rightTy r)
    (hl64 : toI64 leftTy = some l64) (hr64 : toI64 rightTy = some r64) :
    Compiles Ω (.nullCoalesce left right) .i64 (seq l fun x => seq r fun y => seq (emitConvert l64 x) fun x =>
      Ssa.shortCircuit true x (emitInstr .icmpEq [x]) (emitConvert r64 y)) := by
  have hbuilds₃ : ∀ x y x' : Operand Value, Builds [x', y, x]
      (Ssa.shortCircuit true x' (emitInstr (.icmpEq : Op O) [x']) (emitConvert r64 y)) := fun x y x' =>
    (Builds.instr _ _ _).shortCircuit ((Builds.convert r64 y).mono (by simp)) true x'
  have hbuilds₂ : ∀ x y : Operand Value, Builds [y, x] (seq (emitConvert l64 x) fun x =>
      Ssa.shortCircuit true x (emitInstr (.icmpEq : Op O) [x]) (emitConvert r64 y)) :=
    fun x y => ((Builds.convert l64 x).mono (by simp)).seq (hbuilds₃ x y)
  have hbuilds₁ : ∀ x : Operand Value, Builds [x] (seq r fun y => seq (emitConvert l64 x) fun x =>
      Ssa.shortCircuit true x (emitInstr .icmpEq [x]) (emitConvert r64 y)) :=
    fun x => (hr.builds.mono (List.nil_subset _)).seq (hbuilds₂ x)
  refine ⟨hl.builds.seq hbuilds₁, ?_, ?_⟩
  · have hmeans := hl.means.seq hl.builds hbuilds₁
      (n := fun v s => (emitted Ω right s).bind fun q => some (if v.bits.toNat = 0 then word q.1 else word v, q.2)) ?_
    · have heq : emitted Ω (.nullCoalesce left right) = fun s => (emitted Ω left s).bind fun p =>
          (emitted Ω right p.2).bind fun q => some (if p.1.bits.toNat = 0 then word q.1 else word p.1, q.2) := by
        funext s
        simp only [emitted, Option.map_eq_bind, Function.comp_def]
      rwa [heq]
    rintro x v ⟨s, s', hv⟩
    have hvTy : toI64 v.type = some l64 := by rw [hl.typed _ _ _ hv]; exact hl64
    refine (hr.means.mono (List.nil_subset _)).seq (hr.builds.mono (List.nil_subset _)) (hbuilds₂ x)
      (n := fun w s => some (if v.bits.toNat = 0 then word w else word v, s)) ?_
    rintro y w ⟨s, s', hw⟩
    have hwTy : toI64 w.type = some r64 := by rw [hr.typed _ _ _ hw]; exact hr64
    have hword : convert (semantics Ω.sem Ω.toDouble) l64 v = fun s => some (word v, s) := funext fun s => convert_toI64 hvTy s
    have hconvert : Means (semantics Ω.sem Ω.toDouble) [(y, w), (x, v)] (emitConvert l64 x) _ :=
      (Means.convert l64 x v).mono (by simp)
    have hmeans := hconvert.seq ((Builds.convert l64 x).mono (by simp)) (hbuilds₃ x y)
      (n := fun u s => some (if v.bits.toNat = 0 then word w else word v, s)) ?_
    · rwa [hword] at hmeans
    rintro x' u ⟨s, s', hu⟩
    rw [hword] at hu
    cases hu
    exact (means_orElse hvTy hwTy).mono (by simp)
  · intro s v s' hv
    obtain ⟨p, _, hp⟩ := Option.bind_eq_some_iff.mp hv
    obtain ⟨q, _, hq⟩ := Option.map_eq_some_iff.mp hp
    cases hq
    split_ifs <;> rfl

/-- A part of a ternary, and its conversion. -/
theorem Compiles.part {e : Expr ι} {ty ty' : LTy} {em : Ssa.Emitter Value (Op O)} {conv : Option (Op O)} (h : Compiles Ω e ty em)
    (hconv : ∀ (v : Value) (s : Sys ι W), v.type = ty → convert (semantics Ω.sem Ω.toDouble) conv v s = some (joined Ω (some ty') v, s))
    (x : Operand Value) (v : Value) :
    Builds [x] (seq em (emitConvert conv)) ∧ Means (semantics Ω.sem Ω.toDouble) [(x, v)] (seq em (emitConvert conv)) fun s =>
      (emitted Ω e s).map fun q => (joined Ω (some ty') q.1, q.2) := by
  have hbuilds : Builds [] (seq em (emitConvert conv)) := h.builds.seq (Builds.convert conv)
  refine ⟨hbuilds.mono (List.nil_subset _), Means.mono ?_ (List.nil_subset _)⟩
  have hmeans := h.means.seq h.builds (Builds.convert conv) (n := fun v s => some (joined Ω (some ty') v, s)) ?_
  · simpa only [Option.map_eq_bind, Function.comp_def] using hmeans
  · rintro y w ⟨s, s', hw⟩
    have hconverted : convert (semantics Ω.sem Ω.toDouble) conv w = fun s => some (joined Ω (some ty') w, s) :=
      funext fun s => hconv w s (h.typed _ _ _ hw)
    exact hconverted ▸ Means.convert conv y w

theorem Compiles.ternary {condition thenExpr elseExpr : Expr ι} {condTy thenTy elseTy ty : LTy} {c t e : Ssa.Emitter Value (Op O)}
    {condBool thenConv elseConv : Option (Op O)} (hc : Compiles Ω condition condTy c) (ht : Compiles Ω thenExpr thenTy t)
    (he : Compiles Ω elseExpr elseTy e) (hcond : toBool condTy = some condBool)
    (hunify : unifyTypes thenTy elseTy = some (ty, thenConv, elseConv))
    (hty : typeOf Ω (.ternary condition thenExpr elseExpr) = some ty) :
    Compiles Ω (.ternary condition thenExpr elseExpr) ty (seq (seq c (emitConvert condBool)) fun x =>
      choose x (seq t (emitConvert thenConv)) (seq e (emitConvert elseConv))) := by
  obtain ⟨hbuildsc, hmeansc⟩ := hc.test hcond
  have hthen := ht.part fun v s => (convert_unifyTypes hunify s).1
  have helse := he.part fun v s => (convert_unifyTypes hunify s).2
  have hbuilds : ∀ x : Operand Value, Builds [x] (choose x (seq t (emitConvert thenConv)) (seq e (emitConvert elseConv))) :=
    fun x => (hthen x (bool false)).1.choose (helse x (bool false)).1 x
  refine ⟨hbuildsc.seq hbuilds, ?_, ?_⟩
  · have hmeans := hmeansc.seq hbuildsc hbuilds (n := fun v s =>
      (if truthy v = true then emitted Ω thenExpr s else emitted Ω elseExpr s).map fun q => (joined Ω (some ty) q.1, q.2)) ?_
    · have heq : emitted Ω (.ternary condition thenExpr elseExpr) = fun s =>
          ((emitted Ω condition s).bind fun p => some (bool (truthy p.1), p.2)).bind fun r =>
            (if truthy r.1 = true then emitted Ω thenExpr r.2 else emitted Ω elseExpr r.2).map fun q =>
              (joined Ω (some ty) q.1, q.2) := by
        funext s
        rw [Option.bind_assoc]
        simp only [emitted, hty, Option.bind_some, truthy_bool]
      rwa [heq]
    rintro x v ⟨s, s', hv⟩
    obtain ⟨p, _, hp⟩ := Option.bind_eq_some_iff.mp hv
    cases hp
    have hmem : (x, bool (truthy p.1)) ∈ [(x, bool (truthy p.1))] := List.mem_cons_self
    have hchoose := Means.choose hmem (truth_bool (truthy p.1)) (hthen x _).2 (helse x _).2 (hthen x (bool false)).1
      (helse x (bool false)).1
    rw [truthy_bool]
    cases htruthy : truthy p.1 <;> rwa [htruthy] at hchoose
  · intro s v s' hv
    obtain ⟨p, _, hp⟩ := Option.bind_eq_some_iff.mp hv
    obtain ⟨q, hq, hsome⟩ := Option.map_eq_some_iff.mp hp
    cases hsome
    rw [hty]
    refine type_joined hunify ?_
    split_ifs at hq
    · exact .inl (ht.typed _ _ _ hq)
    · exact .inr (he.typed _ _ _ hq)

/-- **The code of an expression does this**, by induction on the expression. -/
theorem codegenExpr_compiles {e : Expr ι} : ∀ {ty : LTy} {em : Ssa.Emitter Value (Op O)}, codegenExpr Ω e = some (ty, em) →
    Compiles Ω e ty em := by
  induction e with
  | operand i =>
    rintro ty em ⟨⟩
    refine ⟨Ω.builds i, Ω.means i, fun s v s' hv => ?_⟩
    obtain ⟨r, hr, hsome⟩ := Option.map_eq_some_iff.mp hv
    cases hsome
    exact Ω.typed i _ _ _ hr
  | and left right ihl ihr | or left right ihl ihr =>
    intro ty em h
    obtain ⟨⟨leftTy, l⟩, hl, h⟩ := Option.bind_eq_some_iff.mp h
    obtain ⟨lhsBool, hlhs, h⟩ := Option.bind_eq_some_iff.mp h
    obtain ⟨⟨rightTy, r⟩, hr, h⟩ := Option.bind_eq_some_iff.mp h
    obtain ⟨rhsBool, hrhs, h⟩ := Option.bind_eq_some_iff.mp h
    cases h
    exact (ihl hl).shortCircuit (ihr hr) hlhs hrhs _ fun _ => rfl
  | nullCoalesce left right ihl ihr =>
    intro ty em h
    obtain ⟨⟨leftTy, l⟩, hl, h⟩ := Option.bind_eq_some_iff.mp h
    obtain ⟨⟨rightTy, r⟩, hr, h⟩ := Option.bind_eq_some_iff.mp h
    obtain ⟨l64, hl64, h⟩ := Option.bind_eq_some_iff.mp h
    obtain ⟨r64, hr64, h⟩ := Option.bind_eq_some_iff.mp h
    cases h
    exact (ihl hl).nullCoalesce (ihr hr) hl64 hr64
  | ternary condition thenExpr elseExpr ihc iht ihe =>
    intro ty em h
    have hty := (map_codegenExpr _).symm.trans (congrArg (Option.map Prod.fst) h)
    obtain ⟨⟨condTy, c⟩, hc, h⟩ := Option.bind_eq_some_iff.mp h
    obtain ⟨condBool, hcond, h⟩ := Option.bind_eq_some_iff.mp h
    obtain ⟨⟨thenTy, t⟩, ht, h⟩ := Option.bind_eq_some_iff.mp h
    obtain ⟨⟨elseTy, e⟩, he, h⟩ := Option.bind_eq_some_iff.mp h
    obtain ⟨⟨phiTy, thenConv, elseConv⟩, hunify, h⟩ := Option.bind_eq_some_iff.mp h
    cases h
    exact (ihc hc).ternary (iht ht) (ihe he) hcond hunify hty

end Compiles

/-! ## What is meant -/

/-- A value that is not `null`. -/
def held (v : Value) : Held := ⟨v, false, nofun⟩

/-- The operands, from left to right. -/
def Expr.operands : Expr ι → List ι
  | .operand i => [i]
  | .and left right | .or left right | .nullCoalesce left right => left.operands ++ right.operands
  | .ternary condition thenExpr elseExpr => condition.operands ++ (thenExpr.operands ++ elseExpr.operands)

/-- A value of a ternary: what is made a float is no `null`. -/
def Held.joined (ty : Option LTy) (h : Held) : Held :=
  if ty = some .double ∧ h.value.type ≠ .double then held (asDouble Ω.toDouble h.value) else h

/-- What an expression means: an operand is evaluated where its value is needed, and `??` asks for `null`. -/
def lazy : Expr ι → Sys ι W → Option (Held × Sys ι W)
  | .operand i, s => (Ω.run i s.1).map fun r => (r.1, r.2, s.2 ++ [i])
  | .and left right, s =>
    (lazy left s).bind fun p =>
      if truthy p.1.value = true then (lazy right p.2).map fun q => (held (bool (truthy q.1.value)), q.2)
      else some (held (bool false), p.2)
  | .or left right, s =>
    (lazy left s).bind fun p =>
      if truthy p.1.value = false then (lazy right p.2).map fun q => (held (bool (truthy q.1.value)), q.2)
      else some (held (bool true), p.2)
  | .nullCoalesce left right, s => (lazy left s).bind fun p => if p.1.null then lazy right p.2 else some p
  | .ternary condition thenExpr elseExpr, s =>
    let ty := typeOf Ω (.ternary condition thenExpr elseExpr)
    (lazy condition s).bind fun p =>
      (if truthy p.1.value = true then lazy thenExpr p.2 else lazy elseExpr p.2).map fun q => (q.1.joined Ω ty, q.2)

/-- Some of these operands are evaluated, each at most once and from left to right. -/
def InOrder (operands : List ι) (s s' : Sys ι W) : Prop := ∃ evaluated, evaluated.Sublist operands ∧ s'.2 = s.2 ++ evaluated

variable {Ω}

section Lazy

variable {operands operands' : List ι} {s s' s'' : Sys ι W} {h : Held}

theorem InOrder.append (hfirst : InOrder operands s s') (hsecond : InOrder operands' s' s'') :
    InOrder (operands ++ operands') s s'' := by
  obtain ⟨evaluated, hsub, heq⟩ := hfirst
  obtain ⟨evaluated', hsub', heq'⟩ := hsecond
  exact ⟨evaluated ++ evaluated', hsub.append hsub', by rw [heq', heq, List.append_assoc]⟩

theorem InOrder.mono (hin : InOrder operands s s') (hsub : operands.Sublist operands') : InOrder operands' s s' := by
  obtain ⟨evaluated, hsub', heq⟩ := hin
  exact ⟨evaluated, hsub'.trans hsub, heq⟩

/-- **Operands are evaluated in order**, by induction on the expression. -/
theorem lazy_inOrder {e : Expr ι} : ∀ {s h s'}, lazy Ω e s = some (h, s') → InOrder e.operands s s' := by
  induction e with
  | operand i =>
    intro s h s' hlazy
    obtain ⟨r, _, hsome⟩ := Option.map_eq_some_iff.mp hlazy
    cases hsome
    exact ⟨[i], .refl _, rfl⟩
  | and left right ihl ihr | or left right ihl ihr =>
    intro s h s' hlazy
    obtain ⟨p, hp, hlazy⟩ := Option.bind_eq_some_iff.mp hlazy
    split_ifs at hlazy
    · obtain ⟨q, hq, hsome⟩ := Option.map_eq_some_iff.mp hlazy
      cases hsome
      exact (ihl hp).append (ihr hq)
    · cases hlazy
      exact (ihl hp).mono (List.sublist_append_left _ _)
  | nullCoalesce left right ihl ihr =>
    intro s h s' hlazy
    obtain ⟨p, hp, hlazy⟩ := Option.bind_eq_some_iff.mp hlazy
    split_ifs at hlazy
    · exact (ihl hp).append (ihr hlazy)
    · cases hlazy
      exact (ihl hp).mono (List.sublist_append_left _ _)
  | ternary condition thenExpr elseExpr ihc iht ihe =>
    intro s h s' hlazy
    obtain ⟨p, hp, hlazy⟩ := Option.bind_eq_some_iff.mp hlazy
    obtain ⟨q, hq, hsome⟩ := Option.map_eq_some_iff.mp hlazy
    cases hsome
    refine (ihc hp).append ?_
    split_ifs at hq
    · exact (iht hq).mono (List.sublist_append_left _ _)
    · exact (ihe hq).mono (List.sublist_append_right _ _)

/-- Whatever is evaluated, an operand is. -/
theorem length_lt_of_emitted {e : Expr ι} : ∀ {s v s'}, emitted Ω e s = some (v, s') → s.2.length < s'.2.length := by
  induction e with
  | operand i =>
    intro s v s' hv
    obtain ⟨r, _, hsome⟩ := Option.map_eq_some_iff.mp hv
    cases hsome
    simp
  | and left right ihl ihr | or left right ihl ihr =>
    intro s v s' hv
    obtain ⟨p, hp, hv⟩ := Option.bind_eq_some_iff.mp hv
    split_ifs at hv
    · obtain ⟨q, hq, hsome⟩ := Option.map_eq_some_iff.mp hv
      cases hsome
      exact (ihl hp).trans (ihr hq)
    · cases hv
      exact ihl hp
  | nullCoalesce left right ihl ihr =>
    intro s v s' hv
    obtain ⟨p, hp, hv⟩ := Option.bind_eq_some_iff.mp hv
    obtain ⟨q, hq, hsome⟩ := Option.map_eq_some_iff.mp hv
    cases hsome
    exact (ihl hp).trans (ihr hq)
  | ternary condition thenExpr elseExpr ihc iht ihe =>
    intro s v s' hv
    obtain ⟨p, hp, hv⟩ := Option.bind_eq_some_iff.mp hv
    obtain ⟨q, hq, hsome⟩ := Option.map_eq_some_iff.mp hv
    cases hsome
    refine (ihc hp).trans ?_
    split_ifs at hq
    · exact iht hq
    · exact ihe hq

end Lazy

/-! ## Where the two agree -/

variable (Ω) in
/-- What the emitted code does is what is meant. -/
def Agrees (e : Expr ι) (s : Sys ι W) : Prop := emitted Ω e s = (lazy Ω e s).map fun r => (r.1.value, r.2)

section Agreement

variable {left right condition thenExpr elseExpr : Expr ι} {s : Sys ι W}

theorem Agrees.and (hl : Agrees Ω left s)
    (hr : ∀ h s', lazy Ω left s = some (h, s') → truthy h.value = true → Agrees Ω right s') : Agrees Ω (.and left right) s := by
  unfold Agrees at hl
  show (emitted Ω left s).bind _ = Option.map _ ((lazy Ω left s).bind _)
  rw [hl]
  cases hlazy : lazy Ω left s with
  | none => rfl
  | some p =>
    simp only [Option.map_some, Option.bind_some]
    split_ifs with htruthy
    · rw [hr p.1 p.2 hlazy htruthy, Option.map_map, Option.map_map]
      rfl
    · rfl

theorem Agrees.or (hl : Agrees Ω left s)
    (hr : ∀ h s', lazy Ω left s = some (h, s') → truthy h.value = false → Agrees Ω right s') : Agrees Ω (.or left right) s := by
  unfold Agrees at hl
  show (emitted Ω left s).bind _ = Option.map _ ((lazy Ω left s).bind _)
  rw [hl]
  cases hlazy : lazy Ω left s with
  | none => rfl
  | some p =>
    simp only [Option.map_some, Option.bind_some]
    split_ifs with htruthy
    · rw [hr p.1 p.2 hlazy htruthy, Option.map_map, Option.map_map]
      rfl
    · rfl

theorem value_joined (ty : Option LTy) (h : Held) : (h.joined Ω ty).value = joined Ω ty h.value := by
  unfold Held.joined joined
  split_ifs <;> rfl

theorem Agrees.ternary (hc : Agrees Ω condition s)
    (ht : ∀ h s', lazy Ω condition s = some (h, s') → truthy h.value = true → Agrees Ω thenExpr s')
    (he : ∀ h s', lazy Ω condition s = some (h, s') → truthy h.value = false → Agrees Ω elseExpr s') :
    Agrees Ω (.ternary condition thenExpr elseExpr) s := by
  unfold Agrees at hc
  show (emitted Ω condition s).bind _ = Option.map _ ((lazy Ω condition s).bind _)
  rw [hc]
  cases hlazy : lazy Ω condition s with
  | none => rfl
  | some p =>
    simp only [Option.map_some, Option.bind_some, Option.map_map, Function.comp_def, value_joined]
    split_ifs with htruthy
    · rw [ht p.1 p.2 hlazy htruthy, Option.map_map]
      rfl
    · rw [he p.1 p.2 hlazy (Bool.eq_false_iff.mpr htruthy), Option.map_map]
      rfl

theorem word_eq_iff {v : Value} : word v = v ↔ v.type = .i64 := by
  constructor
  · intro heq
    rw [← heq]
    rfl
  · intro hty
    obtain ⟨type, bits⟩ := v
    cases hty
    exact congrArg (Value.mk .i64) ((BitVec.ofNat_toNat 64 bits).trans (BitVec.setWidth_eq bits))

variable (Ω) in
/-- The left operand of `??` is `null`, and the right one is a word. -/
def NullThenWord (left right : Expr ι) (s : Sys ι W) : Prop :=
  ∀ h s', lazy Ω left s = some (h, s') → h.null = true ∧ ∀ h' s'', lazy Ω right s' = some (h', s'') → h'.value.type = .i64

theorem nullThenWord_iff {h : Held} {s' : Sys ι W} (hlazy : lazy Ω left s = some (h, s')) :
    NullThenWord Ω left right s ↔
      h.null = true ∧ ∀ h' s'', lazy Ω right s' = some (h', s'') → h'.value.type = .i64 := by
  constructor
  · exact fun hall => hall h s' hlazy
  · intro hthis h₁ s₁ hlazy₁
    rw [hlazy] at hlazy₁
    cases hlazy₁
    exact hthis

/-- **`??` does what is meant** exactly if its left operand is `null`, and its right one a word. -/
theorem agrees_nullCoalesce_iff (hl : Agrees Ω left s)
    (hr : ∀ h s', lazy Ω left s = some (h, s') → h.null = true → Agrees Ω right s') :
    Agrees Ω (.nullCoalesce left right) s ↔ NullThenWord Ω left right s := by
  have hemitted : emitted Ω (.nullCoalesce left right) s = (emitted Ω left s).bind fun p =>
      (emitted Ω right p.2).map fun q => (if p.1.bits.toNat = 0 then word q.1 else word p.1, q.2) := rfl
  have hmeant : lazy Ω (.nullCoalesce left right) s = (lazy Ω left s).bind fun p =>
      if p.1.null then lazy Ω right p.2 else some p := rfl
  unfold Agrees at hl
  rw [Agrees, hemitted, hmeant, hl]
  cases hlazy : lazy Ω left s with
  | none => exact iff_of_true rfl fun h s' hsome => by rw [hlazy] at hsome; cases hsome
  | some p =>
    obtain ⟨h, s'⟩ := p
    rw [nullThenWord_iff hlazy, Option.map_some, Option.bind_some, Option.bind_some]
    dsimp only
    cases hnull : h.null with
    | false =>
      -- the right operand is evaluated nevertheless
      refine iff_of_false (fun heq => ?_) fun hthis => Bool.false_ne_true hthis.1
      obtain ⟨q, hq, hsome⟩ := Option.map_eq_some_iff.mp heq
      have hlt := length_lt_of_emitted hq
      rw [(Prod.mk.inj hsome).2] at hlt
      exact absurd hlt (lt_irrefl _)
    | true =>
      have hright := hr h s' hlazy hnull
      unfold Agrees at hright
      rw [if_pos rfl, hright, h.zero hnull]
      cases lazy Ω right s' with
      | none => exact iff_of_true rfl ⟨rfl, nofun⟩
      | some q =>
        have hword : (word q.1.value, q.2) = (q.1.value, q.2) ↔ q.1.value.type = .i64 := by
          rw [Prod.mk.injEq, and_iff_left rfl, word_eq_iff]
        constructor
        · intro heq
          refine ⟨rfl, ?_⟩
          rintro h' s'' ⟨⟩
          exact hword.mp (Option.some_inj.mp heq)
        · intro hthis
          exact congrArg some (hword.mpr (hthis.2 q.1 q.2 rfl))

end Agreement

/-! ## In every function -/

variable (Ω) in
/-- **Lazy and exact**, for an expression and a state: there is code, and in every function that has it, the machine comes to its
end with what is meant, and with operands evaluated from left to right, each at most once. -/
structure Exact (e : Expr ι) (s : Sys ι W) : Prop where
  code : ∃ ty em, codegenExpr Ω e = some (ty, em) ∧ ∀ B : Ssa.Builder Value (Op O), B.Sound → ∀ F, (em B).2.Within F →
    ∀ c, Ssa.At B c → c.state = s → Comes (semantics Ω.sem Ω.toDouble) F (em B).2 (em B).1 B.regs c
      ((lazy Ω e s).map fun r => (r.1.value, r.2))
  inOrder : ∀ h s', lazy Ω e s = some (h, s') → InOrder e.operands s s'

variable (Ω) in
/-- Something of the parts of an expression that are evaluated, in the states where that begins. -/
def Parts (φ : Expr ι → Sys ι W → Prop) : Expr ι → Sys ι W → Prop
  | .operand _, _ => True
  | .and left right, s => φ left s ∧ ∀ h s', lazy Ω left s = some (h, s') → truthy h.value = true → φ right s'
  | .or left right, s => φ left s ∧ ∀ h s', lazy Ω left s = some (h, s') → truthy h.value = false → φ right s'
  | .nullCoalesce left right, s => φ left s ∧ ∀ h s', lazy Ω left s = some (h, s') → h.null = true → φ right s'
  | .ternary condition thenExpr elseExpr, s => φ condition s ∧ ∀ h s', lazy Ω condition s = some (h, s') →
    (truthy h.value = true → φ thenExpr s') ∧ (truthy h.value = false → φ elseExpr s')

variable (Ω) in
/-- Something of an expression, and of every part of it that is evaluated, in the state where that begins. -/
def Throughout (φ : Expr ι → Sys ι W → Prop) : Expr ι → Sys ι W → Prop
  | .operand i, s => φ (.operand i) s
  | .and left right, s => φ (.and left right) s ∧ Throughout φ left s ∧
    ∀ h s', lazy Ω left s = some (h, s') → truthy h.value = true → Throughout φ right s'
  | .or left right, s => φ (.or left right) s ∧ Throughout φ left s ∧
    ∀ h s', lazy Ω left s = some (h, s') → truthy h.value = false → Throughout φ right s'
  | .nullCoalesce left right, s => φ (.nullCoalesce left right) s ∧ Throughout φ left s ∧
    ∀ h s', lazy Ω left s = some (h, s') → h.null = true → Throughout φ right s'
  | .ternary condition thenExpr elseExpr, s => φ (.ternary condition thenExpr elseExpr) s ∧ Throughout φ condition s ∧
    ∀ h s', lazy Ω condition s = some (h, s') →
      (truthy h.value = true → Throughout φ thenExpr s') ∧ (truthy h.value = false → Throughout φ elseExpr s')

variable (Ω) in
/-- The types are such that there is code, and a `??` has a left operand that is `null`, and a right one that is a word. -/
def Fit (e : Expr ι) (s : Sys ι W) : Prop :=
  (typeOf Ω e).isSome ∧ ∀ left right, e = .nullCoalesce left right → NullThenWord Ω left right s

section Throughout

variable {φ ψ : Expr ι → Sys ι W → Prop} {e : Expr ι} {s : Sys ι W}

theorem throughout_iff : Throughout Ω φ e s ↔ φ e s ∧ Parts Ω (Throughout Ω φ) e s := by
  cases e with
  | operand i => exact (and_iff_left trivial).symm
  | _ => rfl

theorem Throughout.self (h : Throughout Ω φ e s) : φ e s := (throughout_iff.mp h).1

theorem Parts.imp (himp : ∀ e s, φ e s → ψ e s) (h : Parts Ω φ e s) : Parts Ω ψ e s := by
  cases e with
  | operand i => trivial
  | ternary condition thenExpr elseExpr =>
    exact ⟨himp _ _ h.1, fun h' s' hlazy => (h.2 h' s' hlazy).imp (fun ht hv => himp _ _ (ht hv)) fun he hv => himp _ _ (he hv)⟩
  | _ => exact ⟨himp _ _ h.1, fun h' s' hlazy hv => himp _ _ (h.2 h' s' hlazy hv)⟩

/-- Two things are the same throughout if they are the same where the first one holds of the parts. -/
theorem throughout_congr (hiff : ∀ e s, Parts Ω φ e s → (φ e s ↔ ψ e s)) : ∀ s, Throughout Ω φ e s ↔ Throughout Ω ψ e s := by
  have hstep : ∀ e s, (Parts Ω (Throughout Ω φ) e s ↔ Parts Ω (Throughout Ω ψ) e s) →
      (Throughout Ω φ e s ↔ Throughout Ω ψ e s) := by
    intro e s hparts
    rw [throughout_iff, throughout_iff, ← hparts]
    exact and_congr_left fun hthroughout => hiff e s (hthroughout.imp fun _ _ => Throughout.self)
  induction e with
  | operand i => exact fun s => hstep _ s Iff.rfl
  | and left right ihl ihr | or left right ihl ihr | nullCoalesce left right ihl ihr =>
    refine fun s => hstep _ s ?_
    simp only [Parts, ihl, ihr]
  | ternary condition thenExpr elseExpr ihc iht ihe =>
    refine fun s => hstep _ s ?_
    simp only [Parts, ihc, iht, ihe]

/-- The code of an expression is exact where what it does is what is meant. -/
theorem exact_iff : Exact Ω e s ↔ (typeOf Ω e).isSome ∧ Agrees Ω e s := by
  rw [← map_codegenExpr, Option.isSome_map]
  constructor
  · rintro ⟨⟨ty, em, hcode, hcomes⟩, _⟩
    refine ⟨by rw [hcode]; rfl, ?_⟩
    have hcompiles := codegenExpr_compiles hcode
    have hstart : (Ssa.Builder.start Value (Op O)).Sound := Ssa.Builder.start_sound
    have hsound := (hcompiles.builds _ hstart (List.forall_mem_nil _)).1
    have hat : Ssa.At (Ssa.Builder.start Value (Op O)) (⟨0, 0, fun _ => none, s⟩ : Ssa.Config Value (Sys ι W)) := ⟨rfl, rfl⟩
    have hwithin := Ssa.Builder.Within.refl (em (Ssa.Builder.start Value (Op O))).2
    have hmeant := hcomes _ hstart _ hwithin _ hat rfl
    have hdone := hcompiles.means _ hstart (List.forall_mem_nil _) _ (hwithin.hosts _) _ hat (List.forall_mem_nil _)
    exact hdone.unique hsound hmeant
  · rintro ⟨hsome, hagrees⟩
    obtain ⟨⟨ty, em⟩, hcode⟩ := Option.isSome_iff_exists.mp hsome
    refine ⟨⟨ty, em, hcode, ?_⟩, fun h s' => lazy_inOrder⟩
    rintro B hB F hF c hc rfl
    unfold Agrees at hagrees
    rw [← hagrees]
    exact (codegenExpr_compiles hcode).means B hB (List.forall_mem_nil _) F (hF.hosts B) c hc (List.forall_mem_nil _)

/-- Where the parts do what is meant, so does the whole if it is no `??`, and a `??` as has been shown. -/
theorem exact_iff_fit (hparts : Parts Ω (Exact Ω) e s) : Exact Ω e s ↔ Fit Ω e s := by
  rw [exact_iff, Fit]
  refine and_congr_right fun _ => ?_
  have hagrees : Parts Ω (Agrees Ω) e s := hparts.imp fun _ _ h => (exact_iff.mp h).2
  cases e with
  | operand i =>
    refine iff_of_true ?_ nofun
    show (Ω.run i s.1).map _ = ((Ω.run i s.1).map _).map _
    rw [Option.map_map]
    rfl
  | and left right => exact iff_of_true (Agrees.and hagrees.1 hagrees.2) nofun
  | or left right => exact iff_of_true (Agrees.or hagrees.1 hagrees.2) nofun
  | nullCoalesce left right =>
    rw [agrees_nullCoalesce_iff hagrees.1 hagrees.2]
    constructor
    · rintro hnull _ _ ⟨⟩
      exact hnull
    · exact fun hall => hall left right rfl
  | ternary condition thenExpr elseExpr =>
    exact iff_of_true (Agrees.ternary hagrees.1 (fun h s' hlazy => (hagrees.2 h s' hlazy).1)
      fun h s' hlazy => (hagrees.2 h s' hlazy).2) nofun

variable (Ω) in
/-- **Lazy operators are lazy and exact** exactly if at every `??` that is evaluated, the left operand is `null`, and the right
one a word; and if there is code. -/
theorem lazy_and_exact_iff (e : Expr ι) (s : Sys ι W) : Throughout Ω (Exact Ω) e s ↔ Throughout Ω (Fit Ω) e s :=
  throughout_congr (fun _ _ hparts => exact_iff_fit hparts) s

end Throughout

/-! ## Operands that are calls -/

/-- Operands whose code is one instruction. -/
def calls (toDouble : ℤ → Word) (type : ι → LTy) (run : ι → W → Option (Held × W))
    (typed : ∀ i w h w', run i w = some (h, w') → h.value.type = type i) : Operands ι ι W where
  sem i _ s := (run i s.1).map fun r => (r.1.value, r.2, s.2 ++ [i])
  toDouble := toDouble
  type := type
  emit i := emitInstr (.other i) []
  run := run
  typed := typed
  builds _ := Builds.instr _ _ _
  means _ := Means.instr .nil

/-- Two functions that return `0` and `1`. -/
def zeroAndOne : Operands Bool Bool Unit :=
  calls (fun _ => 0) (fun _ => .i64) (fun i w => some (held ⟨.i64, if i then 1 else 0⟩, w)) fun i w h w' hrun => by
    cases hrun
    rfl

/-- `f() ?? g()` is not what is meant where `f` returns `0`: `g` is called, and its value is that of the expression. -/
theorem not_exact_zero_nullCoalesce :
    ¬Throughout zeroAndOne (Exact zeroAndOne) (.nullCoalesce (.operand false) (.operand true)) ((), []) := by
  intro h
  have hagrees := (exact_iff.mp h.self).2
  have htraces := congrArg (Option.map fun r => r.2.2) hagrees
  cases htraces

end Visuall.Codegen.Laziness
