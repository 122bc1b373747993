import ExprBackend.Code.Assembly

/-! # Compiling expressions

An expression becomes the body of a function that returns its value.

A draft is a buffer whose chunk is in the heap already. Functions that are made
from it share that chunk, so they run whatever is assembled there last.
-/

namespace ExprBackend

def Node.toProgram (n : Node) : Emit Program := do
  n.emitInto
  Emit.ret
  Emit.program

def compileProgram (marks : Marks) (interceptor : Option Interceptor) (name : Text)
    (params : List Text) (n : Node) : Except Failure Program × Code :=
  n.toProgram marks { Code.create name params with interceptor }

def compile (marks : Marks) (interceptor : Option Interceptor) (name : Text) (params : List Text)
    (n : Node) (globals : Bindings) : Run Value :=
  match (compileProgram marks interceptor name params n).1 with
  | .ok program => program.install globals
  | .error failure => throw failure

structure Draft where
  code : Code
  place : Ref

namespace Draft

def create (name : Text) (params : List Text) : Run Draft := do
  let code := Code.create name params
  return { code, place := ← modifyGet fun h => h.allocChunk code.chunk }

def emit {α : Type} (marks : Marks) (d : Draft) (emission : Emit α) :
    Run (Except Failure α × Draft) := do
  let (result, code) := emission marks d.code
  modify fun h => h.setChunk d.place code.chunk
  return (result, { d with code })

def install (d : Draft) (p : Program) (globals : Bindings) : Run Value :=
  Run.newFunction (.compiled ⟨p.name, p.params, d.place, globals⟩)

end Draft

end ExprBackend
