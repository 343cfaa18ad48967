import OpticC.Frontend.BinaryChain

/-! The expressions that the grammar of C derives from identifiers, integer constants, parentheses
and operators, casts and `sizeof` apart, and the nodes the parser makes of them. -/

namespace OpticC

section Links

def Arena.setNextSibling (a : Arena) (offset next : ℕ) : Arena :=
  a.modify offset fun n => { n with nextSibling := next }

/-- `link_siblings` on the arena alone. -/
def Arena.link (a : Arena) (chain : ℕ × ℕ) (node : ℕ) : (ℕ × ℕ) × Arena :=
  if node = 0 then (chain, a)
  else if chain.1 = 0 then ((node, node), a)
  else ((chain.1, node), a.setNextSibling chain.2 node)

/-- The chain of the arguments hangs on the callee. -/
def Arena.attach (a : Arena) (callee args : ℕ) : Arena :=
  if args ≠ 0 then a.setNextSibling callee args else a

/-- The arena once an argument is linked to the chain. -/
def Arena.wrap (a : Arena) (chain : ℕ × ℕ) (arg : ℕ) : (ℕ × ℕ) × Arena :=
  (a.put ⟨74, true, 0, arg, 0, 0⟩).2.link chain (a.put ⟨74, true, 0, arg, 0, 0⟩).1

end Links

namespace Expressions

section Grammar

abbrev Mark (s : String) : Type := {t : Token // Parser.isPunct t s = true}

abbrev MemberName : Type := {t : Token // t.kind = .identifier}

structure PrefixOperator where
  token : Token
  code : ℕ
  castOperand : Bool
  eq : prefixOperator token = some (code, castOperand)

structure AssignmentOperator where
  token : Token
  code : ℕ
  eq : assignmentOperator token = some code

/-- An identifier that is no type name, with these typedef names, and no GNU form, or an integer
constant. -/
structure Atom (T : String → Bool) where
  token : Token
  kind : token.kind = .identifier ∨ token.kind = .intConstant
  name : token.kind = .identifier → token.text ≠ "typeof" ∧ token.text ≠ "__typeof__" ∧
    token.text ≠ "__extension__" ∧ "__builtin_".isPrefixOf token.text = false
  notType : ∀ p : Parser, p.typedefNames = T → p.currentToken = token →
    (p.isTypeSpecifier || p.isTypeQualifier) = false
  notClose : token.text ≠ ")"

inductive Level where
  | primary | suffixes | unary | operations | conditional | assignment | arguments | expression

/-- The phrases of the grammar. `suffixes` are the postfix operators behind an operand and
`operations` the binary operators behind one, each with its right operand. -/
inductive Phrase (T : String → Bool) : Level → Type
  | atom (x : Atom T) : Phrase T .primary
  | parens (left : Mark "(") (e : Phrase T .expression) (right : Mark ")") : Phrase T .primary
  | noSuffix : Phrase T .suffixes
  | index (left : Mark "[") (e : Phrase T .expression) (right : Mark "]")
      (rest : Phrase T .suffixes) : Phrase T .suffixes
  | callEmpty (left : Mark "(") (right : Mark ")") (rest : Phrase T .suffixes) : Phrase T .suffixes
  | call (left : Mark "(") (args : Phrase T .arguments) (right : Mark ")")
      (rest : Phrase T .suffixes) : Phrase T .suffixes
  | dot (mark : Mark ".") (name : MemberName) (rest : Phrase T .suffixes) : Phrase T .suffixes
  | arrow (mark : Mark "->") (name : MemberName) (rest : Phrase T .suffixes) : Phrase T .suffixes
  | increment (mark : Mark "++") (rest : Phrase T .suffixes) : Phrase T .suffixes
  | decrement (mark : Mark "--") (rest : Phrase T .suffixes) : Phrase T .suffixes
  | suffixed (e : Phrase T .primary) (suffixes : Phrase T .suffixes) : Phrase T .unary
  | prefixed (o : PrefixOperator) (e : Phrase T .unary) : Phrase T .unary
  | noOperation : Phrase T .operations
  | operation (o : BinaryOperator) (e : Phrase T .unary) (rest : Phrase T .operations) :
      Phrase T .operations
  | binary (e : Phrase T .unary) (rest : Phrase T .operations) : Phrase T .conditional
  | choice (e : Phrase T .unary) (rest : Phrase T .operations) (question : Mark "?")
      (thenExpr : Phrase T .expression) (colon : Mark ":") (elseExpr : Phrase T .conditional) :
      Phrase T .conditional
  | single (e : Phrase T .conditional) : Phrase T .assignment
  | assign (left : Phrase T .unary) (o : AssignmentOperator) (right : Phrase T .assignment) :
      Phrase T .assignment
  | lastArgument (e : Phrase T .assignment) : Phrase T .arguments
  | argument (e : Phrase T .assignment) (mark : Mark ",") (rest : Phrase T .arguments) :
      Phrase T .arguments
  | whole (e : Phrase T .assignment) : Phrase T .expression
  | comma (e : Phrase T .assignment) (mark : Mark ",") (rest : Phrase T .expression) :
      Phrase T .expression

namespace Phrase

variable {T : String → Bool}

@[simp] def tokens : {l : Level} → Phrase T l → List Token
  | _, atom x => [x.token]
  | _, parens left e right => left.1 :: (e.tokens ++ [right.1])
  | _, noSuffix => []
  | _, index left e right rest => left.1 :: (e.tokens ++ right.1 :: rest.tokens)
  | _, callEmpty left right rest => left.1 :: right.1 :: rest.tokens
  | _, call left args right rest => left.1 :: (args.tokens ++ right.1 :: rest.tokens)
  | _, dot mark name rest => mark.1 :: name.1 :: rest.tokens
  | _, arrow mark name rest => mark.1 :: name.1 :: rest.tokens
  | _, increment mark rest => mark.1 :: rest.tokens
  | _, decrement mark rest => mark.1 :: rest.tokens
  | _, suffixed e suffixes => e.tokens ++ suffixes.tokens
  | _, prefixed o e => o.token :: e.tokens
  | _, noOperation => []
  | _, operation o e rest => o.token :: (e.tokens ++ rest.tokens)
  | _, binary e rest => e.tokens ++ rest.tokens
  | _, choice e rest question thenExpr colon elseExpr =>
    e.tokens ++ rest.tokens ++ question.1 :: (thenExpr.tokens ++ colon.1 :: elseExpr.tokens)
  | _, single e => e.tokens
  | _, assign left o right => left.tokens ++ o.token :: right.tokens
  | _, lastArgument e => e.tokens
  | _, argument e mark rest => e.tokens ++ mark.1 :: rest.tokens
  | _, whole e => e.tokens
  | _, comma e mark rest => e.tokens ++ mark.1 :: rest.tokens

def isParens : Phrase T .primary → Bool
  | atom _ => false
  | parens _ _ _ => true

def isNoSuffix : Phrase T .suffixes → Bool
  | noSuffix => true
  | _ => false

/-- No postfix operator stands behind a parenthesised operand, unless the operand itself stands
behind a prefix `++`, `--`, `+` or `-`. The flag says whether a unary expression is read by
`parse_cast_expression` or behind one of these operators. -/
@[simp] def unbroken : {l : Level} → Phrase T l → Bool → Bool
  | _, atom _, _ => true
  | _, parens _ e _, _ => e.unbroken true
  | _, noSuffix, _ => true
  | _, index _ e _ rest, _ => e.unbroken true && rest.unbroken true
  | _, callEmpty _ _ rest, _ => rest.unbroken true
  | _, call _ args _ rest, _ => args.unbroken true && rest.unbroken true
  | _, dot _ _ rest, _ => rest.unbroken true
  | _, arrow _ _ rest, _ => rest.unbroken true
  | _, increment _ rest, _ => rest.unbroken true
  | _, decrement _ rest, _ => rest.unbroken true
  | _, suffixed e suffixes, cast =>
    e.unbroken true && suffixes.unbroken true && (!cast || !e.isParens || suffixes.isNoSuffix)
  | _, prefixed o e, _ => e.unbroken o.castOperand
  | _, noOperation, _ => true
  | _, operation _ e rest, _ => e.unbroken true && rest.unbroken true
  | _, binary e rest, _ => e.unbroken true && rest.unbroken true
  | _, choice e rest _ thenExpr _ elseExpr, _ =>
    e.unbroken true && rest.unbroken true && thenExpr.unbroken true && elseExpr.unbroken true
  | _, single e, _ => e.unbroken true
  | _, assign left _ right, _ => left.unbroken true && right.unbroken true
  | _, lastArgument e, _ => e.unbroken true
  | _, argument e _ rest, _ => e.unbroken true && rest.unbroken true
  | _, whole e, _ => e.unbroken true
  | _, comma e _ rest, _ => e.unbroken true && rest.unbroken true

/-- The operators of a chain with their right operands. -/
def operationList : {l : Level} → Phrase T l → List (BinaryOperator × Phrase T .unary)
  | _, operation o e rest => (o, e) :: rest.operationList
  | _, _ => []

end Phrase

end Grammar

section Nodes

variable {T : String → Bool}

mutual

/-- The allocations in `a` for the phrase leave `a'`, and its node is at the offset. The node of
a postfix operator has below it the node of all that stands in front of the operator. -/
inductive Builds : {l : Level} → Phrase T l → Arena → ℕ → Arena → Prop
  | atom {x : Atom T} {a : Arena} :
      Builds (.atom x) a (buildToken x.token a).1 (buildToken x.token a).2
  | parens {left : Mark "("} {e : Phrase T .expression} {right : Mark ")"} {a a' : Arena} {n : ℕ} :
      Builds e a n a' → Builds (.parens left e right) a n a'
  | suffixed {e : Phrase T .primary} {suffixes : Phrase T .suffixes} {a a₁ a' : Arena} {n n' : ℕ} :
      Builds e a n a₁ → BuildsSuffixes suffixes n a₁ n' a' → Builds (.suffixed e suffixes) a n' a'
  | prefixed {o : PrefixOperator} {e : Phrase T .unary} {a a₁ : Arena} {n : ℕ} :
      Builds e a n a₁ → Builds (.prefixed o e) a (a₁.put ⟨65, true, 0, n, 0, o.code⟩).1
        (a₁.put ⟨65, true, 0, n, 0, o.code⟩).2
  | binary {e : Phrase T .unary} {rest : Phrase T .operations} {a a' : Arena} {n : ℕ} :
      BuildsChain e rest.operationList a n a' → Builds (.binary e rest) a n a'
  | choice {e : Phrase T .unary} {rest : Phrase T .operations} {question : Mark "?"}
      {thenExpr : Phrase T .expression} {colon : Mark ":"} {elseExpr : Phrase T .conditional}
      {a a₁ a₂ a₃ a₄ : Arena} {n m k w : ℕ} :
      BuildsChain e rest.operationList a n a₁ → Builds thenExpr a₁ m a₂ →
      Builds elseExpr a₂ k a₃ → a₃.put ⟨0, true, 0, m, k, 0⟩ = (w, a₄) →
      Builds (.choice e rest question thenExpr colon elseExpr) a
        (a₄.put ⟨66, true, 0, n, w, 0⟩).1 (a₄.put ⟨66, true, 0, n, w, 0⟩).2
  | single {e : Phrase T .conditional} {a a' : Arena} {n : ℕ} :
      Builds e a n a' → Builds (.single e) a n a'
  | assign {left : Phrase T .unary} {o : AssignmentOperator} {right : Phrase T .assignment}
      {a a₁ a₂ : Arena} {n m : ℕ} : Builds left a n a₁ → Builds right a₁ m a₂ →
      Builds (.assign left o right) a (a₂.put ⟨73, true, 0, n, m, o.code⟩).1
        (a₂.put ⟨73, true, 0, n, m, o.code⟩).2
  | whole {e : Phrase T .assignment} {a a' : Arena} {n : ℕ} :
      Builds e a n a' → Builds (.whole e) a n a'
  | comma {e : Phrase T .assignment} {mark : Mark ","} {rest : Phrase T .expression}
      {a a₁ a₂ : Arena} {n m : ℕ} : Builds e a n a₁ → Builds rest a₁ m a₂ →
      Builds (.comma e mark rest) a (a₂.put ⟨72, true, 0, n, m, 0⟩).1
        (a₂.put ⟨72, true, 0, n, m, 0⟩).2

/-- The same for postfix operators behind an operand whose node is given. -/
inductive BuildsSuffixes : Phrase T .suffixes → ℕ → Arena → ℕ → Arena → Prop
  | noSuffix {n : ℕ} {a : Arena} : BuildsSuffixes .noSuffix n a n a
  | index {left : Mark "["} {e : Phrase T .expression} {right : Mark "]"}
      {rest : Phrase T .suffixes} {n m w n' : ℕ} {a a₁ a₂ a' : Arena} :
      Builds e a m a₁ → a₁.put ⟨68, true, 0, n, m, 0⟩ = (w, a₂) →
      BuildsSuffixes rest w a₂ n' a' → BuildsSuffixes (.index left e right rest) n a n' a'
  | callEmpty {left : Mark "("} {right : Mark ")"} {rest : Phrase T .suffixes} {n w n' : ℕ}
      {a a₁ a' : Arena} : a.put ⟨67, true, 0, n, 0, 0⟩ = (w, a₁) →
      BuildsSuffixes rest w a₁ n' a' → BuildsSuffixes (.callEmpty left right rest) n a n' a'
  | call {left : Mark "("} {args : Phrase T .arguments} {right : Mark ")"}
      {rest : Phrase T .suffixes} {n first w n' : ℕ} {a a₁ a₂ a' : Arena} :
      BuildsArguments args (0, 0) a first a₁ →
      (a₁.attach n first).put ⟨67, true, 0, n, 0, 0⟩ = (w, a₂) →
      BuildsSuffixes rest w a₂ n' a' → BuildsSuffixes (.call left args right rest) n a n' a'
  | dot {mark : Mark "."} {name : MemberName} {rest : Phrase T .suffixes} {n s w n' : ℕ}
      {a a₁ a₂ a' : Arena} : a.intern name.1.text = (s, a₁) →
      a₁.put ⟨69, true, 0, n, 0, s⟩ = (w, a₂) → BuildsSuffixes rest w a₂ n' a' →
      BuildsSuffixes (.dot mark name rest) n a n' a'
  | arrow {mark : Mark "->"} {name : MemberName} {rest : Phrase T .suffixes} {n s w n' : ℕ}
      {a a₁ a₂ a' : Arena} : a.intern name.1.text = (s, a₁) →
      a₁.put ⟨69, true, 0, n, 0, s ||| 2 ^ 31⟩ = (w, a₂) → BuildsSuffixes rest w a₂ n' a' →
      BuildsSuffixes (.arrow mark name rest) n a n' a'
  | increment {mark : Mark "++"} {rest : Phrase T .suffixes} {n w n' : ℕ} {a a₁ a' : Arena} :
      a.put ⟨65, true, 0, n, 0, 6⟩ = (w, a₁) → BuildsSuffixes rest w a₁ n' a' →
      BuildsSuffixes (.increment mark rest) n a n' a'
  | decrement {mark : Mark "--"} {rest : Phrase T .suffixes} {n w n' : ℕ} {a a₁ a' : Arena} :
      a.put ⟨65, true, 0, n, 0, 7⟩ = (w, a₁) → BuildsSuffixes rest w a₁ n' a' →
      BuildsSuffixes (.decrement mark rest) n a n' a'

/-- The same for operands joined by binary operators, however they are grouped. -/
inductive BuildsChain : Phrase T .unary → List (BinaryOperator × Phrase T .unary) → Arena → ℕ →
    Arena → Prop
  | leaf {e : Phrase T .unary} {a a' : Arena} {n : ℕ} : Builds e a n a' → BuildsChain e [] a n a'
  | node {e f : Phrase T .unary} {l r : List (BinaryOperator × Phrase T .unary)}
      {o : BinaryOperator} {a a₁ a₂ a₃ : Arena} {n m w : ℕ} :
      BuildsChain e l a n a₁ → BuildsChain f r a₁ m a₂ → a₂.put ⟨0, true, 0, n, m, 0⟩ = (w, a₃) →
      BuildsChain e (l ++ (o, f) :: r) a (a₃.put ⟨64, true, 0, w, 0, o.code⟩).1
        (a₃.put ⟨64, true, 0, w, 0, o.code⟩).2

/-- The same for arguments, linked behind the chain so far; the offset is the first one's. -/
inductive BuildsArguments : Phrase T .arguments → ℕ × ℕ → Arena → ℕ → Arena → Prop
  | lastArgument {e : Phrase T .assignment} {chain : ℕ × ℕ} {a a₁ a₂ : Arena} {n w : ℕ} :
      Builds e a n a₁ → a₁.put ⟨74, true, 0, n, 0, 0⟩ = (w, a₂) →
      BuildsArguments (.lastArgument e) chain a (a₂.link chain w).1.1 (a₂.link chain w).2
  | argument {e : Phrase T .assignment} {mark : Mark ","} {rest : Phrase T .arguments}
      {chain chain' : ℕ × ℕ} {a a₁ a₂ a₃ a' : Arena} {n w first : ℕ} :
      Builds e a n a₁ → a₁.put ⟨74, true, 0, n, 0, 0⟩ = (w, a₂) →
      a₂.link chain w = (chain', a₃) → BuildsArguments rest chain' a₃ first a' →
      BuildsArguments (.argument e mark rest) chain a first a'

end

end Nodes

end Expressions

end OpticC
