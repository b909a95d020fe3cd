import Visuall.Lib.Split

/-!
# Type annotations and their strings

`Parser::parseTypeAnnotation` turns the tokens of an annotation into a string, which is all that is
kept of it.  The parser is written once over what it puts together at each step: strings, as in the
C++, or the tree that the tokens spell.

* `Builder` — what is put together for each form of annotation;
* `parseWith` — the parser, `parseTypeAnnotation` its instance on strings;
* `Ann`, `parseAnn` — the annotation as a tree, and the parser to it;
* `parseWith_eq` — whatever the parser puts together is put together from the tree it parsed.
-/

namespace Visuall.Types

/-! ### Tokens -/

/-- The characters of an identifier. -/
def isIdentChar (c : Char) : Bool := c.isAlphanum || c == '_'

/-- The lexeme of an identifier token. -/
structure Ident where
  chars : List Char
  nonempty : chars ≠ []
  isIdent : ∀ c ∈ chars, isIdentChar c = true
deriving DecidableEq

/-- The tokens a type annotation looks at. -/
inductive Token where
  | question | lparen | rparen | comma | arrow | kwChan | nullLiteral | lbracket | rbracket | pipe
  | star
  | identifier (lexeme : Ident)
  | other
deriving DecidableEq

/-- How the parser ends without a result: a `ParseError`, or too little fuel. -/
inductive ParseStop where
  | parseError (msg : String)
  | outOfFuel
deriving DecidableEq

/-- `match(type)`: the tokens behind one of this type. -/
def matchToken (type : Token) : List Token → Option (List Token)
  | [] => none
  | t :: rest => if t = type then some rest else none

/-- The keyword `null`, as the base name of a type. -/
def nullIdent : Ident := ⟨['n', 'u', 'l', 'l'], by simp, by simp [isIdentChar]⟩

/-- The base name: `null` or an identifier. -/
def expectTypeName : List Token → Except ParseStop (Ident × List Token)
  | .nullLiteral :: rest => .ok (nullIdent, rest)
  | .identifier name :: rest => .ok (name, rest)
  | _ => .error (.parseError "Expected type name")

/-- `expect(TokenType::RBRACKET, …)`. -/
def expectRbracket (toks : List Token) : Except ParseStop (List Token) :=
  match matchToken .rbracket toks with
  | some rest => .ok rest
  | none => .error (.parseError "Expected ']' in type annotation")

/-! ### The parser -/

/-- What the parser puts together for each form of annotation. -/
structure Builder (β : Type*) where
  /-- `?T`. -/
  optional : β → β
  /-- `(T, …) -> R`. -/
  function : List β → β → β
  /-- `chan T`. -/
  channel : β → β
  /-- A base name with its generic arguments, the alternative behind `|`, a postfix `?`, and a
  pointer suffix `*`. -/
  base : Ident → List β → Option β → Bool → Bool → β

section Parse

variable {β : Type}

mutual

/-- The parser, over a builder.  `fuel` bounds the depth of the calls. -/
def parseWith (b : Builder β) : ℕ → List Token → Except ParseStop (β × List Token)
  | 0, _ => .error .outOfFuel
  | fuel + 1, toks =>
      match matchToken .question toks with
      | some toks => do
          let (result, toks) ← parseWith b fuel toks
          return (b.optional result, toks)
      | none => do
          match ← parseFunctionType b fuel toks with
          | some result => return result
          | none =>
              match matchToken .kwChan toks with
              | some toks => do
                  let (inner, toks) ← parseWith b fuel toks
                  return (b.channel inner, toks)
              | none => do
                  let (name, toks) ← expectTypeName toks
                  let (args, toks) ← parseGenericArgs b fuel toks
                  let (alternative, toks) ← parseAlternative b fuel toks
                  let nullable := matchToken .question toks
                  let toks := nullable.getD toks
                  let star := matchToken .star toks
                  return (b.base name args alternative nullable.isSome star.isSome, star.getD toks)

/-- The attempt at a function type.  Without one the position is restored. -/
def parseFunctionType (b : Builder β) :
    ℕ → List Token → Except ParseStop (Option (β × List Token))
  | 0, _ => .error .outOfFuel
  | fuel + 1, toks =>
      match matchToken .lparen toks with
      | none => .ok none
      | some toks => do
          let (params, toks) ← parseParams b fuel toks
          match (matchToken .rparen toks).bind (matchToken .arrow) with
          | none => return none
          | some toks => do
              let (ret, toks) ← parseWith b fuel toks
              return some (b.function params ret, toks)

/-- The parameter types, up to the closing parenthesis. -/
def parseParams (b : Builder β) : ℕ → List Token → Except ParseStop (List β × List Token)
  | 0, _ => .error .outOfFuel
  | fuel + 1, toks =>
      match matchToken .rparen toks with
      | some _ => .ok ([], toks)
      | none => do
          let (first, toks) ← parseWith b fuel toks
          let (others, toks) ← parseCommaList b fuel toks
          return (first :: others, toks)

/-- `while (match(TokenType::COMMA)) …`: the annotations behind commas. -/
def parseCommaList (b : Builder β) : ℕ → List Token → Except ParseStop (List β × List Token)
  | 0, _ => .error .outOfFuel
  | fuel + 1, toks =>
      match matchToken .comma toks with
      | none => .ok ([], toks)
      | some toks => do
          let (first, toks) ← parseWith b fuel toks
          let (others, toks) ← parseCommaList b fuel toks
          return (first :: others, toks)

/-- The generic arguments in brackets, if there are any. -/
def parseGenericArgs (b : Builder β) : ℕ → List Token → Except ParseStop (List β × List Token)
  | 0, _ => .error .outOfFuel
  | fuel + 1, toks =>
      match matchToken .lbracket toks with
      | none => .ok ([], toks)
      | some toks => do
          let (first, toks) ← parseWith b fuel toks
          let (others, toks) ← parseCommaList b fuel toks
          let toks ← expectRbracket toks
          return (first :: others, toks)

/-- The alternative behind `|`, if there is one. -/
def parseAlternative (b : Builder β) : ℕ → List Token → Except ParseStop (Option β × List Token)
  | 0, _ => .error .outOfFuel
  | fuel + 1, toks =>
      match matchToken .pipe toks with
      | none => .ok (none, toks)
      | some toks => do
          let (next, toks) ← parseWith b fuel toks
          return (some next, toks)

end

end Parse

/-! ### Strings and trees -/

/-- The strings `parseTypeAnnotation` concatenates. -/
def stringBuilder : Builder (List Char) where
  optional t := t ++ ['|', 'n', 'u', 'l', 'l']
  function params ret := '(' :: joinWith ',' params ++ [')', '-', '>'] ++ ret
  channel t := ['c', 'h', 'a', 'n', '['] ++ t ++ [']']
  base name args alternative nullable star :=
    name.chars ++ (if args = [] then [] else '[' :: joinWith ',' args ++ [']']) ++
      alternative.elim [] ('|' :: ·) ++ (if nullable then ['|', 'n', 'u', 'l', 'l'] else []) ++
      (if star then ['*'] else [])

/-- `Parser::parseTypeAnnotation`. -/
def parseTypeAnnotation : ℕ → List Token → Except ParseStop (List Char × List Token) :=
  parseWith stringBuilder

/-- An annotation as a tree. -/
inductive Ann where
  | opt (t : Ann)
  | func (params : List Ann) (ret : Ann)
  | chan (elem : Ann)
  | base (name : Ident) (args : List Ann) (alternative : Option Ann) (nullable star : Bool)

def treeBuilder : Builder Ann := ⟨.opt, .func, .chan, .base⟩

/-- The tree of an annotation. -/
def parseAnn : ℕ → List Token → Except ParseStop (Ann × List Token) := parseWith treeBuilder

namespace Ann

section Fold

variable {β : Type}

mutual

/-- A tree put together by another builder. -/
def fold (b : Builder β) : Ann → β
  | opt t => b.optional (fold b t)
  | func params ret => b.function (foldList b params) (fold b ret)
  | chan t => b.channel (fold b t)
  | base name args alternative nullable star =>
      b.base name (foldList b args) (foldOption b alternative) nullable star

/-- `List.map` of `fold`. -/
def foldList (b : Builder β) : List Ann → List β
  | [] => []
  | t :: ts => fold b t :: foldList b ts

/-- `Option.map` of `fold`. -/
def foldOption (b : Builder β) : Option Ann → Option β
  | none => none
  | some t => some (fold b t)

end

@[simp] theorem foldList_eq (b : Builder β) (ts : List Ann) : foldList b ts = ts.map (fold b) := by
  induction ts with
  | nil => rfl
  | cons t ts ih => rw [foldList, ih, List.map_cons]

@[simp] theorem foldOption_eq (b : Builder β) (t : Option Ann) :
    foldOption b t = t.map (fold b) := by
  cases t <;> rfl

end Fold

end Ann

/-- What the six functions give with a builder, from what they give with the tree builder. -/
structure Folds {β : Type} (b : Builder β) (fuel : ℕ) : Prop where
  whole : ∀ toks, parseWith b fuel toks =
    (parseWith treeBuilder fuel toks).map (Prod.map (Ann.fold b) id)
  functionType : ∀ toks, parseFunctionType b fuel toks =
    (parseFunctionType treeBuilder fuel toks).map (Option.map (Prod.map (Ann.fold b) id))
  params : ∀ toks, parseParams b fuel toks =
    (parseParams treeBuilder fuel toks).map (Prod.map (List.map (Ann.fold b)) id)
  commaList : ∀ toks, parseCommaList b fuel toks =
    (parseCommaList treeBuilder fuel toks).map (Prod.map (List.map (Ann.fold b)) id)
  genericArgs : ∀ toks, parseGenericArgs b fuel toks =
    (parseGenericArgs treeBuilder fuel toks).map (Prod.map (List.map (Ann.fold b)) id)
  alternative : ∀ toks, parseAlternative b fuel toks =
    (parseAlternative treeBuilder fuel toks).map (Prod.map (Option.map (Ann.fold b)) id)

theorem Except.map_bind' {ε α β γ : Type} (x : Except ε α) (k : α → Except ε β) (f : β → γ) :
    (x >>= k).map f = x >>= fun a => (k a).map f := by
  cases x <;> rfl

theorem Except.bind_map' {ε α β γ : Type} (x : Except ε α) (f : α → β) (k : β → Except ε γ) :
    x.map f >>= k = x >>= fun a => k (f a) := by
  cases x <;> rfl

theorem folds {β : Type} (b : Builder β) (fuel : ℕ) : Folds b fuel := by
  induction fuel with
  | zero => exact ⟨fun _ => rfl, fun _ => rfl, fun _ => rfl, fun _ => rfl, fun _ => rfl, fun _ => rfl⟩
  | succ fuel ih =>
      refine ⟨fun toks => ?_, fun toks => ?_, fun toks => ?_, fun toks => ?_, fun toks => ?_,
        fun toks => ?_⟩
      · rw [parseWith, parseWith]
        cases matchToken .question toks with
        | some toks => simp only [ih.whole, Except.bind_map', Except.map_bind']; rfl
        | none =>
            simp only [ih.functionType, Except.bind_map', Except.map_bind']
            congr 1
            funext res
            cases res with
            | some res => rfl
            | none =>
                simp only [Option.map_none]
                cases matchToken .kwChan toks with
                | some toks => simp only [ih.whole, Except.bind_map', Except.map_bind']; rfl
                | none =>
                    simp only [ih.genericArgs, ih.alternative, Except.bind_map', Except.map_bind',
                      Prod.map, id_eq]
                    simp [Except.map, pure, Except.pure, treeBuilder, Ann.fold]
      · rw [parseFunctionType, parseFunctionType]
        cases matchToken .lparen toks with
        | none => rfl
        | some toks =>
            simp only [ih.params, ih.whole, Except.bind_map', Except.map_bind']
            congr 1
            funext res
            simp only [Prod.map_snd, id_eq]
            cases (matchToken .rparen res.2).bind (matchToken .arrow) with
            | none => rfl
            | some toks =>
                simp only [Except.map_bind']
                simp [Except.map, pure, Except.pure, treeBuilder, Ann.fold]
      · rw [parseParams, parseParams]
        cases matchToken .rparen toks with
        | some _ => rfl
        | none => simp only [ih.whole, ih.commaList, Except.bind_map', Except.map_bind']; rfl
      · rw [parseCommaList, parseCommaList]
        cases matchToken .comma toks with
        | none => rfl
        | some toks =>
            simp only [ih.whole, ih.commaList, Except.bind_map', Except.map_bind']; rfl
      · rw [parseGenericArgs, parseGenericArgs]
        cases matchToken .lbracket toks with
        | none => rfl
        | some toks =>
            simp only [ih.whole, ih.commaList, Except.bind_map', Except.map_bind']; rfl
      · rw [parseAlternative, parseAlternative]
        cases matchToken .pipe toks with
        | none => rfl
        | some toks => simp only [ih.whole, Except.bind_map', Except.map_bind']; rfl

/-- **The parser does not look at what it builds.**  What any builder gives is its fold of the tree
that is parsed. -/
theorem parseWith_eq {β : Type} (b : Builder β) (fuel : ℕ) (toks : List Token) :
    parseWith b fuel toks = (parseAnn fuel toks).map (Prod.map (Ann.fold b) id) :=
  (folds b fuel).whole toks

end Visuall.Types
