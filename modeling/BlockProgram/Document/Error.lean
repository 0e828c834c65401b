import BlockProgram.Workspace.Build

/-!
# Why a document is refused
-/

namespace BlockProgram

inductive LoadError where
  | noBlocks
  | blockWithoutId
  | blockWithoutType (block : String)
  | fieldWithoutName (block : String)
  | inputWithoutName (block : String)
  | unknownInputKind (input block kind : String)
  | argumentWithoutId (block : String)
  | badMutation (block : String) (cause : MutationError)
  | variableWithoutName
  | notAForest (cause : BuildError)
  | symbolWithoutName
  | parameterWithoutName (symbol : String)
  | enumWithoutName
  | kindWithoutName
deriving Repr, DecidableEq

/-- The text of an error; a cause follows after a colon. -/
def LoadError.message : LoadError → String
  | .noBlocks => "Workspace JSON must contain a 'blocks' array."
  | .blockWithoutId => "Block is missing 'id'."
  | .blockWithoutType block => "Block '" ++ block ++ "' is missing 'type'."
  | .fieldWithoutName block => "Field of block '" ++ block ++ "' has no 'name'."
  | .inputWithoutName block => "Input of block '" ++ block ++ "' has no 'name'."
  | .unknownInputKind input block kind =>
    "Input '" ++ input ++ "' of block '" ++ block ++ "' has unknown kind '" ++ kind ++ "'."
  | .argumentWithoutId block => "Argument of block '" ++ block ++ "' has no 'id'."
  | .badMutation block cause => "Bad mutation on block '" ++ block ++ "'.: " ++ cause.message
  | .variableWithoutName => "Variable is missing 'name'."
  | .notAForest cause => cause.message
  | .symbolWithoutName => "Symbol is missing 'name'."
  | .parameterWithoutName symbol => "Parameter of '" ++ symbol ++ "' has no 'name'."
  | .enumWithoutName => "Enum is missing 'name'."
  | .kindWithoutName => "Kind is missing 'name'."

end BlockProgram
