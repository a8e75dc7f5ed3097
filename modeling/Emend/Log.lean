/-!
Log messages and the channels they go to. -/
namespace Emend

inductive LogLevel where
  | debug
  | warning
deriving DecidableEq, Repr

def LogLevel.label : LogLevel → String
  | debug => "DEBUG"
  | warning => "WARNING"

structure LogLine where
  level : LogLevel
  message : String
deriving DecidableEq, Repr

/-- The channel that all others are below. -/
def rootChannel : String := "pespunte"

/-- The channel for a name: the name itself if it is the root channel or already below it, else the
name put below the root. -/
def channel (name : String) : String :=
  let root := rootChannel.toList
  if name.toList = root ∨ (root ++ ['.']).isPrefixOf name.toList then name
  else rootChannel ++ "." ++ name

end Emend
