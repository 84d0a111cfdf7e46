namespace InfraModule.Vocabulary

/-- Resource types whose names begin so are the user's own and are not checked. -/
def customTypePrefix : String := "Custom::"

def fullNameSeparator : String := "::"

def nestedTypeSeparator : String := "."

def listValueType : String := "List"

def scalarValueType : String := "String"

def arnWildcard : String := "*"

def functionResourceType : String := "AWS::Lambda::Function"

def nestedStackResourceType : String := "AWS::CloudFormation::Stack"

/-- Attributes of a nested module that begin so name its own outputs. -/
def nestedStackOutputPrefix : String := "Outputs."

def defaultFile : String := "Module.yml"

def pseudoParameters : List (String × String) :=
  [("AWS::AccountId", "String"),
    ("AWS::NotificationARNs", "CommaDelimitedList"),
    ("AWS::NoValue", "String"),
    ("AWS::Partition", "String"),
    ("AWS::Region", "String"),
    ("AWS::StackId", "String"),
    ("AWS::StackName", "String"),
    ("AWS::URLSuffix", "String")]

def beginsWith (text start : String) : Bool :=
  start.toList.isPrefixOf text.toList

end InfraModule.Vocabulary
