import InfraModule.Vocabulary

namespace InfraModule.Arn

open Vocabulary

/-- Whether a text has the shape of a resource name: what follows `arn:` is divided into five
parts when it holds at least four colons. -/
def isArn (text : String) : Bool :=
  beginsWith text "arn:" && 5 ≤ text.toList.count ':'

def isArnOrWildcard (text : String) : Bool :=
  text = arnWildcard || isArn text

end InfraModule.Arn
