import ZenohProxy.Ppp.LateFrames

/-!
# Frames that lose their ends

A sender may lose the end of a frame too, and go on with the next one. The flag that opens the
next frame then closes what has come of the one before.

`broken_frames`: whatever is lost of the frames, and whatever the chunks and the clock, each
frame gives at most one payload, which is a piece of its own content with its own check sequence
(`PieceAs`). So no payload is ever made of two.
-/

namespace ZenohProxy

/-- What a frame can give when any part of it is lost: a payload that stands in the content of
the frame with its trailer behind it. The first octet may have stayed masked. -/
structure PieceAs (p e : Bytes) : Prop where
  ne_nil : e ≠ []
  piece : e ++ pppTrailer e <:+: p ++ pppTrailer p ∨
    ∃ x rest, x :: (rest ++ pppTrailer e) <:+: p ++ pppTrailer p ∧
      (x = pppEscChar ∨ x = pppFlagChar) ∧ e = (x ^^^ pppMaskChar) :: rest

/-- **What a piece of a body passes for.** -/
theorem pieceAs_of_accepted {p e seg : Bytes} (hseg : seg <:+: pppBody p)
    (hacc : accepted seg = some e) : PieceAs p e := by
  obtain ⟨hlen, hread⟩ := accepted_content hacc
  obtain ⟨rfl, hpiece⟩ := pppStuffing.unstuff_infix hseg hread
  have hne : e ≠ [] := by
    rintro rfl
    exact absurd hlen (by decide)
  refine ⟨hne, hpiece.imp_right ?_⟩
  rintro ⟨x, ys, hys, hx, hcontent⟩
  obtain ⟨e₀, rest, rfl⟩ := List.exists_cons_of_ne_nil hne
  obtain ⟨rfl, rfl⟩ := List.cons_eq_cons.mp hcontent
  exact ⟨x, rest, hys, hx, rfl⟩

/-- The body of such a payload is a piece of the body of the frame. -/
theorem PieceAs.body {p e : Bytes} (h : PieceAs p e) : pppBody e <:+: pppBody p := by
  rcases h.piece with hpiece | ⟨x, rest, hpiece, hx, rfl⟩
  · exact pppStuffing.stuff_infix hpiece
  · have hescape := pppStuffing.stuff_infix hpiece
    rw [pppStuffing.stuff_reserved_cons hx] at hescape
    exact (List.suffix_cons _ _).isInfix.trans hescape

theorem sublistForall₂_filterMap {α β γ : Type*} {R : α → β → Prop} {S : γ → β → Prop}
    {f : α → Option γ} (hf : ∀ a b c, R a b → f a = some c → S c b) {as : List α} {bs : List β}
    (h : List.SublistForall₂ R as bs) : List.SublistForall₂ S (as.filterMap f) bs := by
  induction h with
  | nil => exact .nil
  | @cons a b as bs hab _ ih =>
    cases hc : f a with
    | none =>
      rw [List.filterMap_cons_none hc]
      exact .cons_right ih
    | some c =>
      rw [List.filterMap_cons_some hc]
      exact .cons (hf a b c hab hc) ih
  | cons_right _ ih => exact .cons_right ih

theorem filterMap_filled (segs : List Bytes) :
    (Segments.filled segs).filterMap accepted = segs.filterMap accepted := by
  rw [Segments.filled, List.filterMap_filter]
  refine List.filterMap_congr fun seg _ => ?_
  by_cases hempty : seg = []
  · rw [if_neg (by simpa using hempty), hempty, accepted_nil]
  · rw [if_pos (by simpa using hempty)]

/-- **What broken frames give.** Of each frame a first part is sent, and nothing is kept at
first. Whatever the chunks and the clock, the payloads that come out are, in order, pieces of
the payloads, at most one of each. -/
theorem emitted_pieces (report : Bytes → Bytes → Bytes) {rx : FrameRx} (hrx : rx.inputFrame = [])
    {cs : List Chunk} {parts payloads : List Bytes}
    (hparts : List.Forall₂ (fun part frame => part <+: frame) parts (payloads.map pppFrame))
    (hbytes : (stream cs).map Prod.fst = parts.flatten) :
    List.SublistForall₂ (fun e p => PieceAs p e)
      (emitted (Mealy.run (FrameRx.handleRxd report) rx cs).2) payloads := by
  have hbodies : ∀ b ∈ payloads.map pppBody, pppFlagChar ∉ b := by
    intro b hb
    obtain ⟨p, -, rfl⟩ := List.mem_map.mp hb
    exact flag_not_mem_pppBody p
  have hopened : List.Forall₂ (fun part body => part <+: pppFlagChar :: (body ++ [pppFlagChar]))
      parts (payloads.map pppBody) := by
    rw [List.forall₂_map_right_iff] at hparts ⊢
    refine hparts.imp fun part p hpart => ?_
    rwa [← pppFrame_eq]
  have hpieces := (Segments.split_broken pppFlagChar hbodies hopened []
    ((letters_splitInputs rx.lastFrameFlag cs).trans hbytes)).drop_empty
  rw [(emitted_eq_split report cs rx).2, hrx, ← filterMap_filled]
  rw [Segments.Pieces, List.sublistForall₂_map_right_iff] at hpieces
  have haccepted : ∀ seg p e, seg <:+: pppBody p → accepted seg = some e → PieceAs p e :=
    fun _ _ _ hseg hacc => pieceAs_of_accepted hseg hacc
  exact sublistForall₂_filterMap haccepted hpieces

end ZenohProxy
