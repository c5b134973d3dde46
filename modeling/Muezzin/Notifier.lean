import Muezzin.Config
import Muezzin.Host
import Muezzin.Host.Path

/-!
# Delivering an audio file

A delivery records the request, or hands the file to a player. Names are resolved against the audio
directory if there is one, and then the file has to exist; without a directory the player is given
the name as it is and finds out for itself.
-/

namespace Muezzin.NotifierConfig

def resolve (audioDir : Option String) (file : String) : String :=
  match audioDir with
  | some dir => Path.join dir file
  | none => file

/-- Succeeds as soon as the player has been started. -/
def deliver (host : Host) : NotifierConfig → String → Except Error Unit
  | .log, _ => .ok ()
  | .command program args audioDir, file =>
    let path := resolve audioDir file
    if audioDir.isSome && !host.pathExists path then .error (.audioNotFound path)
    else (host.launch program (args ++ [path])).mapError (.playerNotStarted program)

end Muezzin.NotifierConfig
