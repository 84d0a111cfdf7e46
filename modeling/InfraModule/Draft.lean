import InfraModule.Tree.Basic

namespace InfraModule

open Vocabulary

inductive Value where
  | literal (text : String)
  | list (items : List Value)
  | object (fields : List (String × Value))
  | reference (name : String)
  | getAttribute (name attr : String)
  | conditionReference (name : String)
  | findInMap (mapping : String) (top second : Value)

mutual

/-- Stores a value and its parts, all at one place of the file. In an object that gives a name
twice every value is stored, and the last one is the field's. -/
def Value.store (location : Option Location) : Value → Tree → ExprId × Tree
  | .literal text, t => t.addExpression (.literal text) location
  | .list items, t =>
    let (ids, t) := Value.storeItems location items t
    t.addExpression (.list ids) location
  | .object fields, t =>
    let (ids, t) := Value.storeFields location fields t
    t.addExpression (.object (.ofList ids)) location
  | .reference name, t => t.addExpression (.reference name) location
  | .getAttribute name attr, t => t.addExpression (.getAttribute name attr) location
  | .conditionReference name, t => t.addExpression (.conditionReference name) location
  | .findInMap mapping top second, t =>
    let (top, t) := Value.store location top t
    let (second, t) := Value.store location second t
    t.addExpression (.findInMap mapping top second) location

def Value.storeItems (location : Option Location) : List Value → Tree → List ExprId × Tree
  | [], t => ([], t)
  | v :: vs, t =>
    let (id, t) := Value.store location v t
    let (ids, t) := Value.storeItems location vs t
    (id :: ids, t)

def Value.storeFields (location : Option Location) :
    List (String × Value) → Tree → List (String × ExprId) × Tree
  | [], t => ([], t)
  | (name, v) :: vs, t =>
    let (id, t) := Value.store location v t
    let (ids, t) := Value.storeFields location vs t
    ((name, id) :: ids, t)

end

structure ResourceText where
  type : Option String
  value : Option Value
  condition : Option Value
  properties : Option Value
  dependsOn : List String

inductive Item where
  | parameter (type : String)
  | var (value : Value)
  | resource (body : ResourceText)
  | resourceType (properties attributes : List String)
  | condition (value : Value)
  | mapping (value : Value)
  | function (environment : Option Value)
  | macroDef (handler : Value)
  | importedModule (source : String)
  | package (files : String)
  | nestedModule (source : String) (dependsOn : List String)

structure Draft where
  tree : Tree
  file : String
  line : Nat
  groups : List DeclId

inductive Statement where
  | pseudoParameters
  | declare (name : String) (item : Item)
  | beginGroup (name : String)
  | endGroup

def Value.storeOption (location : Option Location) : Option Value → Tree → Option ExprId × Tree
  | none, t => (none, t)
  | some v, t =>
    let (id, t) := v.store location t
    (some id, t)

def Item.store (location : Option Location) : Item → Tree → DeclKind × Tree
  | .parameter type, t => (.parameter type none, t)
  | .var value, t =>
    let (id, t) := value.store location t
    (.var none id, t)
  | .resource body, t =>
    let (value, t) := Value.storeOption location body.value t
    let (guard, t) := Value.storeOption location body.condition t
    let (properties, t) := Value.storeOption location body.properties t
    (.resource ⟨body.type, value, guard, properties, body.dependsOn⟩, t)
  | .resourceType properties attributes, t => (.resourceType none properties attributes, t)
  | .condition value, t =>
    let (id, t) := value.store location t
    (.condition id, t)
  | .mapping value, t =>
    let (id, t) := value.store location t
    (.mapping id, t)
  | .function environment, t =>
    let (environment, t) := Value.storeOption location environment t
    (.function none environment none, t)
  | .macroDef handler, t =>
    let (id, t) := handler.store location t
    (.macroDef id, t)
  | .importedModule source, t => (.importedModule source, t)
  | .package files, t => (.package files, t)
  | .nestedModule source dependsOn, t => (.nestedModule source none none dependsOn, t)

namespace Draft

def start (name file : String) : Draft where
  tree := .new name (some (.lineStart file 1))
  file := file
  line := 1
  groups := []

def scope (d : Draft) : DeclId := d.groups.headD Tree.root

def nextLocation (d : Draft) : Location := .lineStart d.file (d.line + 1)

def place (d : Draft) (parent : DeclId) (name : String) (kind : DeclKind) : DeclId × Draft :=
  let (id, t) := d.tree.addDeclaration parent name (some d.nextLocation) kind
  (id, { d with tree := t, line := d.line + 1 })

def declare (d : Draft) (name : String) (item : Item) : DeclId × Draft :=
  let (kind, t) := item.store (some d.nextLocation) d.tree
  { d with tree := t }.place d.scope name kind

def beginGroup (d : Draft) (name : String) : DeclId × Draft :=
  let (id, d) := d.place d.scope name .group
  (id, { d with groups := id :: d.groups })

def endGroup (d : Draft) : Draft := { d with groups := d.groups.tail }

/-- Declares what every deployment supplies, whatever group is open, under the root. -/
def addPseudoParameters (d : Draft) : Draft :=
  pseudoParameters.foldl (fun d p ↦ (d.place Tree.root p.1 (.pseudoParameter p.2)).2) d

/-- Carries a statement out and names the declaration that it made, if it made a single one. -/
def perform (d : Draft) : Statement → Option DeclId × Draft
  | .pseudoParameters => (none, d.addPseudoParameters)
  | .declare name item =>
    let (id, d) := d.declare name item
    (some id, d)
  | .beginGroup name =>
    let (id, d) := d.beginGroup name
    (some id, d)
  | .endGroup => (none, d.endGroup)

def build (name file : String) (statements : List Statement) : Tree :=
  (statements.foldl (fun d s ↦ (d.perform s).2) (start name file)).tree

end Draft

end InfraModule
