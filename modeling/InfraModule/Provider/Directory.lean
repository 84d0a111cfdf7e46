import InfraModule.Provider.Shape

namespace InfraModule.Provider

open Vocabulary

structure Directory where
  specification : Specification
  customPrefix : String
  deriving DecidableEq

namespace Directory

def ofSpecification (s : Specification) : Directory := ⟨s, customTypePrefix⟩

def empty : Directory := ofSpecification .blank

def isCustom (d : Directory) (type : String) : Bool := beginsWith type d.customPrefix

def resolve? (d : Directory) (type : String) : Option ResourceShape :=
  if d.isCustom type then some ⟨type, none⟩
  else (d.specification.resourceTypes.get? type).map fun t ↦ ⟨type, some t⟩

end Directory

end InfraModule.Provider
