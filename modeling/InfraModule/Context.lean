import InfraModule.Provider.Directory
import InfraModule.SymbolTable

namespace InfraModule

/-- The checks that can be left out. -/
structure Options where
  checkProperties : Bool
  checkAttributes : Bool
  deriving DecidableEq

namespace Options

def standard : Options := ⟨true, true⟩

def minimal : Options := ⟨false, false⟩

end Options

structure Context where
  symbols : SymbolTable
  directory : Provider.Directory
  options : Options
  deriving DecidableEq

structure Workspace where
  tree : Tree
  log : Log
  deriving DecidableEq

end InfraModule
