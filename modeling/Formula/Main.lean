import Formula.CommandLine.Reply
/-!
# The command
-/

def main (args : List String) : IO UInt32 := do
  let reply := Formula.CommandLine.run args
  IO.print reply.output
  IO.eprint reply.error
  return reply.code.toUInt32
