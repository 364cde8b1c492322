import LineForth.Language.Interpreter

/-!
# Dumps

The stack, the definition in progress and the dictionary as text.  Entries are listed newest first,
the order in which names are searched; an entry that a newer one of the same name hides is marked.
-/

namespace LineForth

def Meaning.listing (name : Text) : Meaning → Text
  | .marker _ => name ++ Text.ofString " control"
  | .compiled _ code => Action.listing name code
  | _ => name ++ Text.ofString " native"

namespace Dictionary

/-- One line for an entry; `seen` holds the symbols of newer entries. -/
def entryLine (d : Dictionary) (width : Nat) (seen : List Nat) (e : Entry) : Text :=
  Text.ofString "  @" ++ Text.padLeft width (Decimal.ofNat e.address) ++ Text.ofString " : " ++
    e.meaning.listing (d.spelling e.symbol) ++
    (if seen.contains e.symbol then Text.ofString " (shadowed)" else []) ++ [Text.newline]

def entryLines (d : Dictionary) (width : Nat) : List Nat → List Entry → List Text
  | _, [] => []
  | seen, e :: es => d.entryLine width seen e :: d.entryLines width (e.symbol :: seen) es

def dump (d : Dictionary) : Text :=
  let width := (Decimal.ofNat d.entries.length).length + 1
  Text.ofString "# Dictionary\n" ++ (d.entryLines width [] d.entries).flatten

end Dictionary

def Interpreter.dump (i : Interpreter) : Text :=
  Text.ofString "# Forth Dump\n" ++
    Text.ofString "  stack: " ++ i.stack.display ++ [Text.newline] ++
    (match i.current with
      | some draft => Text.ofString "  defining: " ++ draft.listing ++ [Text.newline]
      | none => []) ++
    i.dict.dump

end LineForth
