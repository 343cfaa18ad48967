import OpticC.Frontend.ExpressionGrammar
import OpticC.Statement.Syntax

/-! The statements that the grammar of C derives from expressions, declarations apart, and what it
means that the nodes of an arena are those of a statement. -/

namespace OpticC.Statements

open Expressions (Mark Phrase Builds)

section Grammar

abbrev Keyword (s : String) : Type := {t : Token // t.kind = .keyword ∧ t.text = s}

/-- The words that begin a declaration or a statement of another kind, and `else`. -/
def reserved : List String :=
  ["if", "while", "for", "return", "break", "continue", "switch", "goto", "do", "case", "default",
    "__extension__", "__label__", "asm", "__asm__", "__asm", "__attribute__", "else", "typedef",
    "extern", "static", "auto", "register", "_Thread_local", "__thread"]

/-- The name of a label, which is no name of a type. -/
structure LabelName (T : String → Bool) where
  token : Token
  kind : token.kind = .identifier
  plain : token.text ∉ reserved
  notType : ∀ p : Parser, p.typedefNames = T → p.currentToken = token → p.isTypeSpecifier = false
  nonempty : token.text ≠ "" ∧ token.text ≠ "*"
  short : token.text.utf8ByteSize + 60 ≤ 2 ^ 32

/-- The statements (`false`) and the sequences of items of a block (`true`). A case label is an item
of its own. -/
inductive Source (T : String → Bool) : Bool → Type
  | nil : Source T true
  | item (s : Source T false) (rest : Source T true) : Source T true
  | caseItem (kw : Keyword "case") (e : Phrase T .conditional) (colon : Mark ":")
      (rest : Source T true) : Source T true
  | rangeItem (kw : Keyword "case") (lo : Phrase T .conditional) (dots : Mark "...")
      (hi : Phrase T .conditional) (colon : Mark ":") (rest : Source T true) : Source T true
  | defaultItem (kw : Keyword "default") (colon : Mark ":") (rest : Source T true) : Source T true
  | block (left : Mark "\x7b") (items : Source T true) (right : Mark "\x7d") : Source T false
  | empty (semi : Mark ";") : Source T false
  | expr (e : Phrase T .expression) (semi : Mark ";") : Source T false
  | ifThen (kw : Keyword "if") (left : Mark "(") (c : Phrase T .expression) (right : Mark ")")
      (s : Source T false) : Source T false
  | ifElse (kw : Keyword "if") (left : Mark "(") (c : Phrase T .expression) (right : Mark ")")
      (s : Source T false) (kw' : Keyword "else") (t : Source T false) : Source T false
  | while_ (kw : Keyword "while") (left : Mark "(") (c : Phrase T .expression) (right : Mark ")")
      (s : Source T false) : Source T false
  | doWhile (kw : Keyword "do") (s : Source T false) (kw' : Keyword "while") (left : Mark "(")
      (c : Phrase T .expression) (right : Mark ")") (semi : Mark ";") : Source T false
  | for_ (kw : Keyword "for") (left : Mark "(") (init : Option (Phrase T .expression))
      (semi : Mark ";") (cond : Option (Phrase T .expression)) (semi' : Mark ";")
      (incr : Option (Phrase T .expression)) (right : Mark ")") (s : Source T false) :
      Source T false
  | switch (kw : Keyword "switch") (left : Mark "(") (c : Phrase T .expression) (right : Mark ")")
      (s : Source T false) : Source T false
  | break_ (kw : Keyword "break") (semi : Mark ";") : Source T false
  | continue_ (kw : Keyword "continue") (semi : Mark ";") : Source T false
  | goto_ (kw : Keyword "goto") (l : LabelName T) (semi : Mark ";") : Source T false
  | labeled (l : LabelName T) (colon : Mark ":") (s : Source T false) : Source T false
  | return_ (kw : Keyword "return") (e : Option (Phrase T .expression)) (semi : Mark ";") :
      Source T false

variable {T : String → Bool}

@[simp] def optional : Option (Phrase T .expression) → List Token
  | none => []
  | some e => e.tokens

namespace Source

@[simp] def tokens : {b : Bool} → Source T b → List Token
  | _, nil => []
  | _, item s rest => s.tokens ++ rest.tokens
  | _, caseItem kw e colon rest => kw.1 :: (e.tokens ++ colon.1 :: rest.tokens)
  | _, rangeItem kw lo dots hi colon rest =>
    kw.1 :: (lo.tokens ++ dots.1 :: (hi.tokens ++ colon.1 :: rest.tokens))
  | _, defaultItem kw colon rest => kw.1 :: colon.1 :: rest.tokens
  | _, block left items right => left.1 :: (items.tokens ++ [right.1])
  | _, empty semi => [semi.1]
  | _, expr e semi => e.tokens ++ [semi.1]
  | _, ifThen kw left c right s => kw.1 :: left.1 :: (c.tokens ++ right.1 :: s.tokens)
  | _, ifElse kw left c right s kw' t =>
    kw.1 :: left.1 :: (c.tokens ++ right.1 :: (s.tokens ++ kw'.1 :: t.tokens))
  | _, while_ kw left c right s => kw.1 :: left.1 :: (c.tokens ++ right.1 :: s.tokens)
  | _, doWhile kw s kw' left c right semi =>
    kw.1 :: (s.tokens ++ kw'.1 :: left.1 :: (c.tokens ++ [right.1, semi.1]))
  | _, for_ kw left init semi cond semi' incr right s =>
    kw.1 :: left.1 :: (optional init ++ semi.1 :: (optional cond ++ semi'.1 ::
      (optional incr ++ right.1 :: s.tokens)))
  | _, switch kw left c right s => kw.1 :: left.1 :: (c.tokens ++ right.1 :: s.tokens)
  | _, break_ kw semi => [kw.1, semi.1]
  | _, continue_ kw semi => [kw.1, semi.1]
  | _, goto_ kw l semi => [kw.1, l.token, semi.1]
  | _, labeled l colon s => l.token :: colon.1 :: s.tokens
  | _, return_ kw e semi => kw.1 :: (optional e ++ [semi.1])

/-- No `else` behind the statement is its own. -/
def closed : {b : Bool} → Source T b → Bool
  | _, ifThen _ _ _ _ _ => false
  | _, ifElse _ _ _ _ _ _ t => t.closed
  | _, while_ _ _ _ _ s => s.closed
  | _, for_ _ _ _ _ _ _ _ _ s => s.closed
  | _, switch _ _ _ _ s => s.closed
  | _, labeled _ _ s => s.closed
  | _, _ => true

/-- The number of items. -/
def count : {b : Bool} → Source T b → ℕ
  | _, item _ rest => rest.count + 1
  | _, caseItem _ _ _ rest => rest.count + 1
  | _, rangeItem _ _ _ _ _ rest => rest.count + 1
  | _, defaultItem _ _ rest => rest.count + 1
  | _, _ => 0

/-- The labels, wherever they stand. -/
@[simp] def labels : {b : Bool} → Source T b → List String
  | _, item s rest => s.labels ++ rest.labels
  | _, caseItem _ _ _ rest => rest.labels
  | _, rangeItem _ _ _ _ _ rest => rest.labels
  | _, defaultItem _ _ rest => rest.labels
  | _, block _ items _ => items.labels
  | _, ifThen _ _ _ _ s => s.labels
  | _, ifElse _ _ _ _ s _ t => s.labels ++ t.labels
  | _, while_ _ _ _ _ s => s.labels
  | _, doWhile _ s _ _ _ _ _ => s.labels
  | _, for_ _ _ _ _ _ _ _ _ s => s.labels
  | _, switch _ _ _ _ s => s.labels
  | _, goto_ _ l _ => [l.token.text]
  | _, labeled l _ s => l.token.text :: s.labels
  | _, _ => []

/-- The parser reads the expressions whole. -/
def Unbroken (e : Option (Phrase T .expression)) : Prop := ∀ e' ∈ e, e'.unbroken true = true

/-- The expressions are read whole and an expression statement begins like one, every `else` belongs
to the nearest `if`, and no block has more than 10000 items. -/
def WellFormed : {b : Bool} → Source T b → Prop
  | _, item s rest => s.WellFormed ∧ rest.WellFormed
  | _, caseItem _ e _ rest => e.unbroken true = true ∧ rest.WellFormed
  | _, rangeItem _ lo _ hi _ rest =>
    lo.unbroken true = true ∧ hi.unbroken true = true ∧ rest.WellFormed
  | _, defaultItem _ _ rest => rest.WellFormed
  | _, block _ items _ => items.count ≤ 10000 ∧ items.WellFormed
  | _, expr e _ => e.unbroken true = true ∧ ∀ t ∈ e.tokens.head?, t.text ∉ reserved
  | _, ifThen _ _ c _ s => c.unbroken true = true ∧ s.WellFormed
  | _, ifElse _ _ c _ s _ t =>
    c.unbroken true = true ∧ s.closed = true ∧ s.WellFormed ∧ t.WellFormed
  | _, while_ _ _ c _ s => c.unbroken true = true ∧ s.WellFormed
  | _, doWhile _ s _ _ c _ _ => c.unbroken true = true ∧ s.WellFormed
  | _, for_ _ _ init _ cond _ incr _ s =>
    Unbroken init ∧ Unbroken cond ∧ Unbroken incr ∧ s.WellFormed
  | _, switch _ _ c _ s => c.unbroken true = true ∧ s.WellFormed
  | _, labeled _ _ s => s.WellFormed
  | _, return_ _ e _ => Unbroken e
  | _, _ => True

/-- The items of a statement that is a block. -/
def blockItems? : Source T false → Option (Source T true)
  | block _ items _ => some items
  | _ => none

end Source

end Grammar

section Nodes

variable {T : String → Bool}

/-- From the offset `lo` on `a'` has the nodes of `a`, but for the next sibling of the one at `off`,
and it has the strings. -/
structure Agrees (a a' : Arena) (lo off : ℕ) : Prop where
  nodes : ∀ o n, lo ≤ o → o ≠ off → a.get o = some n → a'.get o = some n
  root : ∀ n, a.get off = some n → ∃ next, a'.get off = some { n with nextSibling := next }
  strings : ∀ o s, a.Holds o s → a'.Holds o s

/-- The node at `n` is that of the expression, and the nodes below it are as they were built. -/
def ExprAt (a : Arena) {l : Expressions.Level} (e : Phrase T l) (n : ℕ) : Prop :=
  ∃ a₀ a₁, Builds e a₀ n a₁ ∧ Agrees a₁ a a₀.nodeAllocated n

/-- The first clause of a `for`. -/
def InitAt (a : Arena) : Option (Phrase T .expression) → Stmt → Prop
  | none, s => s = .skip
  | some e, s => ∃ n, ExprAt a e n ∧ s = .expr n

/-- Without a condition a `for` has the constant 1. -/
def ConditionAt (a : Arena) : Option (Phrase T .expression) → ℕ → Prop
  | none, n => ∃ node, a.get n = some node ∧ node.kind = 61 ∧ node.data = 1
  | some e, n => ExprAt a e n

def OperandAt (a : Arena) : Option (Phrase T .expression) → Option ℕ → Prop
  | none, o => o = none
  | some e, o => ∃ n, ExprAt a e n ∧ o = some n

/-- The statement with the offsets of its expressions is the one of the source. -/
inductive Reads (a : Arena) : {b : Bool} → Source T b → Stmt → Prop
  | nil : Reads a .nil .skip
  | item {s : Source T false} {rest : Source T true} {s' t' : Stmt} : Reads a s s' →
      Reads a rest t' → Reads a (.item s rest) (.seq s' t')
  | caseItem {kw : Keyword "case"} {e : Phrase T .conditional} {colon : Mark ":"}
      {rest : Source T true} {n : ℕ} {t' : Stmt} : ExprAt a e n → Reads a rest t' →
      Reads a (.caseItem kw e colon rest) (.seq (.case_ (.value n)) t')
  | rangeItem {kw : Keyword "case"} {lo : Phrase T .conditional} {dots : Mark "..."}
      {hi : Phrase T .conditional} {colon : Mark ":"} {rest : Source T true} {n m : ℕ} {t' : Stmt} :
      ExprAt a lo n → ExprAt a hi m → Reads a rest t' →
      Reads a (.rangeItem kw lo dots hi colon rest) (.seq (.case_ (.range n m)) t')
  | defaultItem {kw : Keyword "default"} {colon : Mark ":"} {rest : Source T true} {t' : Stmt} :
      Reads a rest t' → Reads a (.defaultItem kw colon rest) (.seq (.case_ .default_) t')
  | block {left : Mark "\x7b"} {items : Source T true} {right : Mark "\x7d"} {s : Stmt} :
      Reads a items s → Reads a (.block left items right) s
  | empty {semi : Mark ";"} : Reads a (.empty semi) .skip
  | expr {e : Phrase T .expression} {semi : Mark ";"} {n : ℕ} : ExprAt a e n →
      Reads a (.expr e semi) (.expr n)
  | ifThen {kw : Keyword "if"} {left : Mark "("} {c : Phrase T .expression} {right : Mark ")"}
      {s : Source T false} {n : ℕ} {s' : Stmt} : ExprAt a c n → Reads a s s' →
      Reads a (.ifThen kw left c right s) (.ite n s' .skip)
  | ifElse {kw : Keyword "if"} {left : Mark "("} {c : Phrase T .expression} {right : Mark ")"}
      {s : Source T false} {kw' : Keyword "else"} {t : Source T false} {n : ℕ} {s' t' : Stmt} :
      ExprAt a c n → Reads a s s' → Reads a t t' →
      Reads a (.ifElse kw left c right s kw' t) (.ite n s' t')
  | while_ {kw : Keyword "while"} {left : Mark "("} {c : Phrase T .expression} {right : Mark ")"}
      {s : Source T false} {n : ℕ} {s' : Stmt} : ExprAt a c n → Reads a s s' →
      Reads a (.while_ kw left c right s) (.while_ n s')
  | doWhile {kw : Keyword "do"} {s : Source T false} {kw' : Keyword "while"} {left : Mark "("}
      {c : Phrase T .expression} {right : Mark ")"} {semi : Mark ";"} {n : ℕ} {s' : Stmt} :
      ExprAt a c n → Reads a s s' → Reads a (.doWhile kw s kw' left c right semi) (.doWhile s' n)
  | for_ {kw : Keyword "for"} {left : Mark "("} {init : Option (Phrase T .expression)}
      {semi : Mark ";"} {cond : Option (Phrase T .expression)} {semi' : Mark ";"}
      {incr : Option (Phrase T .expression)} {right : Mark ")"} {s : Source T false} {i s' : Stmt}
      {n : ℕ} {m : Option ℕ} : InitAt a init i → ConditionAt a cond n → OperandAt a incr m →
      Reads a s s' →
      Reads a (.for_ kw left init semi cond semi' incr right s) (.seq i (.for_ n m s'))
  | switchItems {kw : Keyword "switch"} {left : Mark "("} {c : Phrase T .expression}
      {right : Mark ")"} {s : Source T false} {items : Source T true} {n : ℕ} {s' : Stmt} :
      ExprAt a c n → s.blockItems? = some items → Reads a items s' →
      Reads a (.switch kw left c right s) (.switch n s')
  | switchSingle {kw : Keyword "switch"} {left : Mark "("} {c : Phrase T .expression}
      {right : Mark ")"} {s : Source T false} {n : ℕ} {s' : Stmt} : ExprAt a c n →
      s.blockItems? = none → Reads a s s' →
      Reads a (.switch kw left c right s) (.switch n (.seq s' .skip))
  | break_ {kw : Keyword "break"} {semi : Mark ";"} : Reads a (.break_ kw semi) .break_
  | continue_ {kw : Keyword "continue"} {semi : Mark ";"} : Reads a (.continue_ kw semi) .continue_
  | goto_ {kw : Keyword "goto"} {l : LabelName T} {semi : Mark ";"} :
      Reads a (.goto_ kw l semi) (.goto_ l.token.text)
  | labeled {l : LabelName T} {colon : Mark ":"} {s : Source T false} {s' : Stmt} : Reads a s s' →
      Reads a (.labeled l colon s) (.labeled l.token.text s')
  | return_ {kw : Keyword "return"} {e : Option (Phrase T .expression)} {semi : Mark ";"}
      {m : Option ℕ} : OperandAt a e m → Reads a (.return_ kw e semi) (.return_ m)

end Nodes

section Frames

variable {a b c a' : Arena} {lo lo' off off' : ℕ}

theorem get_zero (a : Arena) : a.get 0 = none := if_pos (.inl rfl)

theorem Agrees.refl (a : Arena) (lo off : ℕ) : Agrees a a lo off :=
  ⟨fun _ _ _ _ h => h, fun n h => ⟨n.nextSibling, h⟩, fun _ _ h => h⟩

theorem Agrees.of_extends (h : a.Extends b) (lo off : ℕ) : Agrees a b lo off :=
  ⟨fun o n _ _ hn => h.nodes o n hn, fun n hn => ⟨n.nextSibling, h.nodes _ n hn⟩, h.strings⟩

/-- Every node from `lo` on is kept, if that at `off` is no node. -/
theorem Agrees.get (h : Agrees a b lo 0) {o : ℕ} {n : CAstNode} (ho : lo ≤ o)
    (hn : a.get o = some n) : b.get o = some n := by
  refine h.nodes o n ho ?_ hn
  rintro rfl
  rw [get_zero] at hn
  cases hn

theorem Agrees.trans (h : Agrees a b lo off) (h' : Agrees b c lo off) : Agrees a c lo off := by
  refine ⟨fun o n ho hne hn => h'.nodes o n ho hne (h.nodes o n ho hne hn), fun n hn => ?_,
    fun o s hs => h'.strings o s (h.strings o s hs)⟩
  obtain ⟨next, hb⟩ := h.root n hn
  obtain ⟨next', hc⟩ := h'.root _ hb
  exact ⟨next', hc⟩

theorem Agrees.mono (h : Agrees a b lo off) (hlo : lo ≤ lo') : Agrees a b lo' off :=
  ⟨fun o n ho => h.nodes o n (Nat.le_trans hlo ho), h.root, h.strings⟩

/-- A part of the nodes, up to the next sibling of one of them. -/
theorem Agrees.narrow (h : Agrees a b lo 0) (hlo : lo ≤ lo') (hoff : lo ≤ off) :
    Agrees a b lo' off :=
  ⟨fun _ _ ho _ hn => h.get (Nat.le_trans hlo ho) hn, fun n hn => ⟨n.nextSibling, h.get hoff hn⟩,
    h.strings⟩

end Frames

end OpticC.Statements
