namespace InfraModule

inductive NodeSort where
  | declaration
  | expression
  deriving DecidableEq

def NodeSort.label : NodeSort → String
  | .declaration => "declaration"
  | .expression => "expression"

/-- How many places of a store can be named. -/
def idCapacity : Nat := 4294967296

structure IndexOverflow where
  sort : NodeSort
  index : Nat
  deriving DecidableEq

def IndexOverflow.message (o : IndexOverflow) : String :=
  o.sort.label ++ " arena index " ++ toString o.index ++ " exceeds u32::MAX"

structure DeclId where
  index : Nat
  deriving DecidableEq

structure ExprId where
  index : Nat
  deriving DecidableEq

def DeclId.ofIndex (index : Nat) : Except IndexOverflow DeclId :=
  if index < idCapacity then .ok ⟨index⟩ else .error ⟨.declaration, index⟩

def ExprId.ofIndex (index : Nat) : Except IndexOverflow ExprId :=
  if index < idCapacity then .ok ⟨index⟩ else .error ⟨.expression, index⟩

end InfraModule
