import SourceSlices.Text.Quoted

/-!
Causes of failure of the library and their messages.
-/
namespace SourceSlices

/-- Failures of reading or writing below the file tree, with their system messages. -/
inductive FileFault where
  | notFound
  | isDirectory
  | notDirectory
  | linkLoop
  | exists'
  | invalidUtf8
  | other (text : String)
  deriving DecidableEq, Repr

def FileFault.message : FileFault → String
  | .notFound => "No such file or directory (os error 2)"
  | .isDirectory => "Is a directory (os error 21)"
  | .notDirectory => "Not a directory (os error 20)"
  | .linkLoop => "Too many levels of symbolic links (os error 40)"
  | .exists' => "File exists (os error 17)"
  | .invalidUtf8 => "stream did not contain valid UTF-8"
  | .other text => text

inductive StoreFault where
  | foreignKey
  | unique (columns : String)
  | notFound
  | notDatabase
  | cannotOpen (path : String)
  | other (text : String)
  deriving DecidableEq, Repr

def StoreFault.message : StoreFault → String
  | .foreignKey => "FOREIGN KEY constraint failed"
  | .unique columns => "UNIQUE constraint failed: " ++ columns
  | .notFound => "Query returned no rows"
  | .notDatabase => "file is not a database"
  | .cannotOpen path => "unable to open database file: " ++ path
  | .other text => text

inductive Error where
  | io (path : String) (fault : FileFault)
  | database (fault : StoreFault)
  | json (detail : String)
  | config (text : String)
  | unknownHandler (name : String)
  | moduleDisabled
  | sourceNotConfigured (name : String)
  | missingHandlerVersion (name : String)
  | missingSymbol (key : String)
  | integrity (text : String)
  | tokenizer (text : String)
  | traversal (text : String)
  | plan (text : String)
  deriving DecidableEq, Repr

def Error.message : Error → String
  | .io path fault => "failed to read " ++ path ++ ": " ++ fault.message
  | .database fault => "database error: " ++ fault.message
  | .json detail => "metadata serialization failed: " ++ detail
  | .config text => "invalid parser configuration: " ++ text
  | .unknownHandler name => "unknown handler " ++ Text.quoted name
  | .moduleDisabled => "parser module is disabled"
  | .sourceNotConfigured name => "source " ++ Text.quoted name ++ " is not configured"
  | .missingHandlerVersion name => "missing handler version for delegate " ++ Text.quoted name
  | .missingSymbol key => "symbol mapping missing for key " ++ Text.quoted key
  | .integrity text => "chunk integrity violated: " ++ text
  | .tokenizer text => "tokenizer error: " ++ text
  | .traversal text => "traversal failed: " ++ text
  | .plan text => "invalid batch plan: " ++ text

end SourceSlices
