/-!
# Faults of the file system

What an access to a file can run into, with the wording and number of the operating system.
-/

namespace Etymon

inductive IoFault where
  | notFound
  | exists
  | notDirectory
  | isDirectory
  | notSupported
  deriving DecidableEq, Repr, Inhabited

def IoFault.message : IoFault → String
  | .notFound => "No such file or directory (os error 2)"
  | .exists => "File exists (os error 17)"
  | .notDirectory => "Not a directory (os error 20)"
  | .isDirectory => "Is a directory (os error 21)"
  | .notSupported => "Operation not supported (os error 95)"

end Etymon
