import Etymon.Digest
import Etymon.Error
import Etymon.Files.Store

/-!
# Checksums of files

The checksum of a file is the digest of its content, so that it changes with the content and not with
the file's time. A file that does not exist has a checksum of its own.

## Main definitions

* `FileStore.checksum`: the checksum of what a path names.
-/

namespace Etymon.FileStore

/-- The checksum of a file that does not exist; it is no digest. -/
def missingChecksum : String := "missing"

def checksum (s : FileStore) (p : Path) : Except Error String :=
  match s.read p with
  | .ok text => .ok (Digest.sha256 (Digest.bytes text))
  | .error .notFound => .ok missingChecksum
  | .error fault => .error (.io p fault)

end Etymon.FileStore
