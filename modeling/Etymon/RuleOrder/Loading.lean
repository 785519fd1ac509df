import Etymon.Error
import Etymon.Files.Store
import Etymon.RuleOrder

/-!
# Loading the order of rules
-/

namespace Etymon.RuleOrder

/-- The order that a file declares. -/
def load (files : FileStore) (path : Path) : Except Error RuleOrder :=
  ((files.read path).mapError (.io path)).map parse

end Etymon.RuleOrder
