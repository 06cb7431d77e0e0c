import Prysm.Trieutil.Safety
import Prysm.Trieutil.Tree
import Prysm.Trieutil.Binding
import Prysm.Operations.Serial
