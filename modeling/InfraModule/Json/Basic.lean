import InfraModule.Json.Token

namespace InfraModule

/-- A value as it stands in a document: members keep their order, and a name may stand twice. -/
inductive Json where
  | null
  | bool (value : Bool)
  | number (digits : String)
  | string (text : Option String)
  | array (items : List Json)
  | object (members : List (Option String × Json))

namespace Json

/-- A container that is still open, with what it holds so far, last first. -/
inductive Frame where
  | array (items : List Json)
  | object (members : List (Option String × Json)) (name : Option String)

inductive Phase where
  | value
  | firstItem
  | firstName
  | name (members : List (Option String × Json))
  | colon (members : List (Option String × Json)) (name : Option String)
  | done (value : Json)

structure State where
  stack : List Frame
  phase : Phase

def begin (stack : List Frame) : Token → Option State
  | .null => some ⟨stack, .done .null⟩
  | .bool b => some ⟨stack, .done (.bool b)⟩
  | .number ds => some ⟨stack, .done (.number ds)⟩
  | .string s => some ⟨stack, .done (.string s)⟩
  | .openArray => some ⟨.array [] :: stack, .firstItem⟩
  | .openObject => some ⟨stack, .firstName⟩
  | .closeArray | .closeObject | .comma | .colon => none

def proceed (value : Json) : List Frame → Token → Option State
  | .array items :: stack, .comma => some ⟨.array (value :: items) :: stack, .value⟩
  | .array items :: stack, .closeArray => some ⟨stack, .done (.array (value :: items).reverse)⟩
  | .object members name :: stack, .comma => some ⟨stack, .name ((name, value) :: members)⟩
  | .object members name :: stack, .closeObject =>
    some ⟨stack, .done (.object ((name, value) :: members).reverse)⟩
  | _, _ => none

def step (s : State) (t : Token) : Option State :=
  match s.phase, t with
  | .value, t => begin s.stack t
  | .firstItem, .closeArray => some ⟨s.stack.tail, .done (.array [])⟩
  | .firstItem, t => begin s.stack t
  | .firstName, .closeObject => some ⟨s.stack, .done (.object [])⟩
  | .firstName, .string name => some ⟨s.stack, .colon [] name⟩
  | .name members, .string name => some ⟨s.stack, .colon members name⟩
  | .colon members name, .colon => some ⟨.object members name :: s.stack, .value⟩
  | .done value, t => proceed value s.stack t
  | _, _ => none

def State.result? : State → Option Json
  | ⟨[], .done value⟩ => some value
  | _ => none

def ofTokens? (ts : List Token) : Option Json :=
  (ts.foldlM step ⟨[], .value⟩).bind State.result?

/-- The value that a text holds, if it holds one and nothing else. -/
def parse? (text : String) : Option Json :=
  (tokens? text.toList).bind ofTokens?

end Json

end InfraModule
