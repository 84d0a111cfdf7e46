import InfraModule.Declaration
import InfraModule.Expression
import InfraModule.Graph.Preorder

namespace InfraModule

open Vocabulary

structure Tree where
  declarations : Array Declaration
  expressions : Array Expression
  deriving DecidableEq

namespace Tree

def root : DeclId := ⟨0⟩

def new (name : String) (location : Option Location) : Tree where
  declarations := #[{
    name := name
    fullName := name
    parent := none
    children := []
    location := location
    dependencies := .empty
    missing := .empty
    kind := .moduleRoot none none }]
  expressions := #[]

def decl? (t : Tree) (id : DeclId) : Option Declaration := t.declarations[id.index]?

def expr? (t : Tree) (id : ExprId) : Option Expression := t.expressions[id.index]?

def modifyDecl (t : Tree) (id : DeclId) (f : Declaration → Declaration) : Tree :=
  { t with declarations := t.declarations.modify id.index f }

def modifyExpr (t : Tree) (id : ExprId) (f : Expression → Expression) : Tree :=
  { t with expressions := t.expressions.modify id.index f }

def declIds (t : Tree) : List DeclId := (List.range t.declarations.size).map DeclId.mk

def exprIds (t : Tree) : List ExprId := (List.range t.expressions.size).map ExprId.mk

def childrenOf (t : Tree) (id : DeclId) : List DeclId :=
  (t.decl? id).elim [] Declaration.children

def partsOf (t : Tree) (id : ExprId) : List ExprId :=
  (t.expr? id).elim [] (fun e ↦ e.kind.children)

/-- The declarations below the root and the root itself, each before its children. -/
def walk (t : Tree) : List DeclId := Graph.preorder t.childrenOf t.declIds [root]

def descendants (t : Tree) (id : ExprId) : List ExprId :=
  Graph.preorder t.partsOf t.exprIds [id]

/-- Where to point when speaking of an expression: at the expression, or else at its owner. -/
def locationOf (t : Tree) (id : ExprId) : Option Location :=
  (t.expr? id).bind fun e ↦ e.location.or ((t.decl? e.owner).bind Declaration.location)

def fieldsOf (t : Tree) (id : ExprId) : Option (Registry ExprId) :=
  (t.expr? id).bind fun e ↦ e.kind.fields?

def adopt (t : Tree) (owner : DeclId) (id : ExprId) : Tree :=
  (t.descendants id).foldl (fun s e ↦ s.modifyExpr e fun x ↦ { x with owner := owner }) t

/-- An expression that no declaration holds yet belongs to the root. -/
def addExpression (t : Tree) (kind : ExprKind) (location : Option Location) : ExprId × Tree :=
  (⟨t.expressions.size⟩,
    { t with expressions := t.expressions.push ⟨root, location, none, kind⟩ })

def addOwnedExpression (t : Tree) (owner : DeclId) (kind : ExprKind)
    (location : Option Location) : ExprId × Tree :=
  let (id, t) := t.addExpression kind location
  (id, t.adopt owner id)

def fullNameUnder (t : Tree) (parent : DeclId) (name : String) : String :=
  if parent = root then name
  else (t.decl? parent).elim "" Declaration.fullName ++ fullNameSeparator ++ name

/-- Puts a new declaration at the end of its parent's children and gives it the expressions that
it holds. The parent is expected to exist. -/
def addDeclaration (t : Tree) (parent : DeclId) (name : String) (location : Option Location)
    (kind : DeclKind) : DeclId × Tree :=
  let id : DeclId := ⟨t.declarations.size⟩
  let grown : Tree := { t with declarations := t.declarations.push {
    name := name
    fullName := t.fullNameUnder parent name
    parent := some parent
    children := []
    location := location
    dependencies := .empty
    missing := .empty
    kind := kind } }
  let linked := grown.modifyDecl parent fun p ↦ { p with children := p.children ++ [id] }
  (id, kind.roots.foldl (fun s e ↦ s.adopt id e) linked)

def addDeclaration? (t : Tree) (parent : DeclId) (name : String) (location : Option Location)
    (kind : DeclKind) : Option (DeclId × Tree) :=
  if (t.decl? parent).isSome then some (t.addDeclaration parent name location kind) else none

@[simp]
theorem decl?_modifyExpr (t : Tree) (id : ExprId) (f : Expression → Expression) (d : DeclId) :
    (t.modifyExpr id f).decl? d = t.decl? d := rfl

@[simp]
theorem expr?_modifyDecl (t : Tree) (id : DeclId) (f : Declaration → Declaration) (e : ExprId) :
    (t.modifyDecl id f).expr? e = t.expr? e := rfl

theorem decl?_modifyDecl (t : Tree) (id : DeclId) (f : Declaration → Declaration) (d : DeclId) :
    (t.modifyDecl id f).decl? d = if d = id then (t.decl? d).map f else t.decl? d := by
  obtain ⟨i⟩ := id
  obtain ⟨j⟩ := d
  simp only [modifyDecl, decl?, Array.getElem?_modify, DeclId.mk.injEq]
  by_cases h : i = j
  · simp [h]
  · simp [h, Ne.symm h]

theorem expr?_modifyExpr (t : Tree) (id : ExprId) (f : Expression → Expression) (e : ExprId) :
    (t.modifyExpr id f).expr? e = if e = id then (t.expr? e).map f else t.expr? e := by
  obtain ⟨i⟩ := id
  obtain ⟨j⟩ := e
  simp only [modifyExpr, expr?, Array.getElem?_modify, ExprId.mk.injEq]
  by_cases h : i = j
  · simp [h]
  · simp [h, Ne.symm h]

end Tree

end InfraModule
