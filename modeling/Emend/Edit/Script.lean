import Emend.Edit.Writer

/-!
What a callback does, as data. A script is a program over a writer and the world around it: it may look
at both, act on the writer step by step, work under a tighter bound, fail, and recover from a failure.
Nothing else about a callback matters, so a statement about all scripts is one about all callbacks. -/
namespace Emend

inductive Script (World : Type) where
  | done
  | fail (fault : Fault)
  | look (next : Writer → World → Script World)
  | tell (change : World → World) (next : Script World)
  | act (operation : Operation) (next : Script World)
  | bounded (stop : Int) (body next : Script World)
  | rescue (body : Script World) (recover : Fault → Script World) (next : Script World)
deriving Inhabited

structure Desk (World : Type) where
  writer : Writer
  world : World

namespace Script

variable {World : Type}

def onWriter (work : EStateM Fault Writer Unit) : EStateM Fault (Desk World) Unit := fun desk =>
  match work desk.writer with
  | .ok () writer => .ok () { desk with writer }
  | .error fault writer => .error fault { desk with writer }

/-- Runs a script. A bounded part ends with its bound taken back, whether it failed or not; only if it
did not is the rest of its region dropped. -/
def run : Script World → EStateM Fault (Desk World) Unit
  | done => pure ()
  | fail fault => throw fault
  | look next => fun desk => (next desk.writer desk.world).run desk
  | tell change next => fun desk => next.run { desk with world := change desk.world }
  | act operation next => do
    onWriter (Writer.perform operation)
    next.run
  | bounded stop body next => fun desk =>
    match desk.writer.enter stop with
    | .error fault => .error fault desk
    | .ok writer =>
      match body.run { desk with writer } with
      | .error fault left =>
        .error fault { left with writer := { left.writer with bound := desk.writer.bound } }
      | .ok () left =>
        match onWriter (Writer.perform (.dropTo stop))
          { left with writer := { left.writer with bound := desk.writer.bound } } with
        | .error fault after => .error fault after
        | .ok () after => next.run after
  | rescue body recover next => fun desk =>
    match body.run desk with
    | .ok () after => next.run after
    | .error fault after =>
      match (recover fault).run after with
      | .ok () after => next.run after
      | .error fault after => .error fault after

def once (operation : Operation) : Script World :=
  act operation done

end Script
end Emend
