import PolicyMend.Location

/-!
Hints for a reader of a file: where built-in functions and keywords stand on a line.
-/

namespace PolicyMend

/-- A use of a built-in function on a line; the end column is excluded. -/
structure BuiltinHint where
  builtin : String
  line : UInt32
  start : UInt32
  stop : UInt32
  deriving DecidableEq, Inhabited

structure KeywordHint where
  name : String
  line : UInt32
  start : UInt32
  stop : UInt32
  deriving DecidableEq, Inhabited

def BuiltinHint.toJson (h : BuiltinHint) : Json :=
  .object [("builtin", .string h.builtin), ("line", wordToJson h.line),
    ("start", wordToJson h.start), ("end", wordToJson h.stop)]

def KeywordHint.toJson (h : KeywordHint) : Json :=
  .object [("name", .string h.name), ("line", wordToJson h.line),
    ("start", wordToJson h.start), ("end", wordToJson h.stop)]

open Json in
def BuiltinHint.reader : Reader BuiltinHint :=
  (Shape.field "builtin" Reader.string <| .field "line" Reader.word32 <|
    .field "start" Reader.word32 <| .field "end" Reader.word32 <| .done).record .skipped
    fun (builtin, line, start, stop, _) => do
      return { builtin := ← builtin, line := ← line, start := ← start, stop := ← stop }

open Json in
def KeywordHint.reader : Reader KeywordHint :=
  (Shape.field "name" Reader.string <| .field "line" Reader.word32 <|
    .field "start" Reader.word32 <| .field "end" Reader.word32 <| .done).record .skipped
    fun (name, line, start, stop, _) => do
      return { name := ← name, line := ← line, start := ← start, stop := ← stop }

end PolicyMend
