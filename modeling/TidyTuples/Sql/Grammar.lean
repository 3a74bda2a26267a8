import TidyTuples.Sql.Ast
import TidyTuples.Sql.Lexer

/-!
# The documented SQL grammar

Derivations relate the list of tokens a phrase consists of to its syntax tree. OR, AND, + and -
are left recursive, so their trees associate to the left; a comparison has at most one operator.
-/

namespace TidyTuples.Grammar

inductive IsComparison : TokenKind → BinOpKind → Prop
  | eq : IsComparison .eq .eq
  | ne : IsComparison .ne .ne
  | lt : IsComparison .lt .lt
  | gt : IsComparison .gt .gt
  | le : IsComparison .le .le
  | ge : IsComparison .ge .ge

inductive IsAdditive : TokenKind → BinOpKind → Prop
  | plus : IsAdditive .plus .add
  | minus : IsAdditive .minus .sub

mutual

inductive OrExpr : List Token → Expr → Prop
  | single {ts : List Token} {e : Expr} : AndExpr ts e → OrExpr ts e
  | or {ls rs : List Token} {t : Token} {l r : Expr} : OrExpr ls l → t.kind = .kwOr →
      AndExpr rs r → OrExpr (ls ++ t :: rs) (.binOp .or l r)

inductive AndExpr : List Token → Expr → Prop
  | single {ts : List Token} {e : Expr} : CompExpr ts e → AndExpr ts e
  | and {ls rs : List Token} {t : Token} {l r : Expr} : AndExpr ls l → t.kind = .kwAnd →
      CompExpr rs r → AndExpr (ls ++ t :: rs) (.binOp .and l r)

inductive CompExpr : List Token → Expr → Prop
  | single {ts : List Token} {e : Expr} : AddExpr ts e → CompExpr ts e
  | comp {ls rs : List Token} {t : Token} {op : BinOpKind} {l r : Expr} : AddExpr ls l →
      IsComparison t.kind op → AddExpr rs r → CompExpr (ls ++ t :: rs) (.binOp op l r)

inductive AddExpr : List Token → Expr → Prop
  | single {ts : List Token} {e : Expr} : Primary ts e → AddExpr ts e
  | add {ls rs : List Token} {t : Token} {op : BinOpKind} {l r : Expr} : AddExpr ls l →
      IsAdditive t.kind op → Primary rs r → AddExpr (ls ++ t :: rs) (.binOp op l r)

inductive Primary : List Token → Expr → Prop
  | intLit {t : Token} : t.kind = .intLit → Primary [t] (.intLit t.intVal)
  | column {t : Token} : t.kind = .ident → Primary [t] (.colRef ⟨"", t.text⟩)
  | qualified {t d c : Token} : t.kind = .ident → d.kind = .dot → c.kind = .ident →
      Primary [t, d, c] (.colRef ⟨t.text, c.text⟩)
  | paren {l r : Token} {ts : List Token} {e : Expr} : l.kind = .lparen → OrExpr ts e →
      r.kind = .rparen → Primary (l :: (ts ++ [r])) e

end

/-- `item {, item}`. -/
inductive CommaList {α : Type} (Item : List Token → α → Prop) : List Token → List α → Prop
  | one {ts : List Token} {x : α} : Item ts x → CommaList Item ts [x]
  | cons {ts us : List Token} {c : Token} {x : α} {xs : List α} : Item ts x → c.kind = .comma →
      CommaList Item us xs → CommaList Item (ts ++ c :: us) (x :: xs)

/-- `orExpr [AS IDENT]`. -/
inductive Item : List Token → SelectItem → Prop
  | plain {ts : List Token} {e : Expr} : OrExpr ts e → Item ts (.item e "")
  | named {ts : List Token} {a n : Token} {e : Expr} : OrExpr ts e → a.kind = .kwAs →
      n.kind = .ident → Item (ts ++ [a, n]) (.item e n.text)

inductive SelectList : List Token → List SelectItem → Prop
  | star {t : Token} : t.kind = .star → SelectList [t] [.star]
  | items {ts : List Token} {items : List SelectItem} : CommaList Item ts items →
      SelectList ts items

/-- `IDENT [IDENT]`. -/
inductive Table : List Token → TableRef → Prop
  | plain {t : Token} : t.kind = .ident → Table [t] ⟨t.text, t.text⟩
  | aliased {t a : Token} : t.kind = .ident → a.kind = .ident → Table [t, a] ⟨t.text, a.text⟩

inductive Where : List Token → Option Expr → Prop
  | absent : Where [] none
  | cond {w : Token} {ts : List Token} {e : Expr} : w.kind = .kwWhere → OrExpr ts e →
      Where (w :: ts) (some e)

inductive Limit : List Token → Word → Prop
  | absent : Limit [] noLimit
  | count {l n : Token} : l.kind = .kwLimit → n.kind = .intLit → Limit [l, n] n.intVal

inductive Semicolon : List Token → Prop
  | absent : Semicolon []
  | present {s : Token} : s.kind = .semicolon → Semicolon [s]

/-- `SELECT list FROM tables [WHERE orExpr] [LIMIT INT_LIT] [;]`. -/
inductive Select : List Token → SelectStmt → Prop
  | mk {s f : Token} {list tables cond lim semi : List Token} {selectList : List SelectItem}
      {fromList : List TableRef} {whereExpr : Option Expr} {limit : Word} :
      s.kind = .kwSelect → SelectList list selectList → f.kind = .kwFrom →
      CommaList Table tables fromList → Where cond whereExpr → Limit lim limit →
      Semicolon semi →
      Select (s :: (list ++ f :: (tables ++ (cond ++ (lim ++ semi)))))
        ⟨selectList, fromList, whereExpr, limit⟩

end TidyTuples.Grammar
