import CanonJson.Proofs.Syntax.Locality
import CanonJson.Proofs.Text.ValidPrefix
/-!
# Documents in octets

Octets that encode a text are read as the text. All others are refused, and the refusal says where they go
wrong: its offset counts the octets of the longest valid prefix, and its line and column are those behind the
text that this prefix encodes.
-/

namespace CanonJson

theorem parse_bytes_of_encode {t : Text} {bs : Bytes} (h : Utf8.encode t = .ok bs) (limit : Nat) :
    parse limit (.bytes bs) = parse limit (.text t) := by
  obtain ⟨ht, rfl⟩ := Utf8.encode_eq_ok_iff.mp h
  rw [parse, parse, Source.decode_text ht, Source.decode, Utf8.scan_encodePoints ht]

theorem parse_bytes_of_scan {bs rest : Bytes} {t : Text} {b : UInt8}
    (h : Utf8.scan bs = (t, b :: rest)) (limit : Nat) :
    parse limit (.bytes bs)
      = .error (.malformed (.behind (.invalidByte b) (bs.length - (b :: rest).length) t)) := by
  rw [parse, Source.decode, h]
  rfl

theorem getElem?_of_scan {bs rest : Bytes} {t : Text} {b : UInt8}
    (h : Utf8.scan bs = (t, b :: rest)) : bs[bs.length - (b :: rest).length]? = some b := by
  rw [← Utf8.encodePoints_of_scan h, List.length_append, Nat.add_sub_cancel]
  simp

/-- Octets are read as the text that they encode. If they encode none, they are refused at the first octet
behind their longest valid prefix, which the refusal names, on the line and in the column to which the text of
that prefix leads. -/
theorem parse_bytes_as_text_or_located (bs : Bytes) (limit : Nat) :
    (∀ t, Utf8.encode t = .ok bs → parse limit (.bytes bs) = parse limit (.text t))
      ∧ (¬ Utf8.Valid bs → ∃ e t b, parse limit (.bytes bs) = .error (.malformed e)
        ∧ e.fault = .invalidByte b ∧ e.fault.code = .invalidEncoding
        ∧ e.fault.message = Text.ofString "invalid UTF-8 byte 0x" ++ Text.hex false 2 b.toNat
        ∧ bs[e.offset]? = some b
        ∧ Utf8.encode t = .ok (bs.take e.offset)
        ∧ (∀ n ≤ bs.length, Utf8.Valid (bs.take n) → n ≤ e.offset)
        ∧ e.line = t.count (CodePoint.ofChar '\n') + 1
        ∧ ∃ above line : Text, t = above ++ line
          ∧ (above = [] ∨ ∃ a, above = a ++ [CodePoint.ofChar '\n']) ∧ CodePoint.ofChar '\n' ∉ line
          ∧ e.column = line.length + 1) := by
  refine ⟨fun t ht => parse_bytes_of_encode ht limit, ?_⟩
  intro hinvalid
  cases hscan : Utf8.scan bs with
  | mk t rest =>
    have hencode := Utf8.encode_of_scan hscan
    cases rest with
    | nil =>
      -- A scan to the end would have read the text of all octets.
      rw [List.length_nil, Nat.sub_zero, List.take_length] at hencode
      exact absurd ⟨t, hencode⟩ hinvalid
    | cons b rest =>
      obtain ⟨hline, hcolumn⟩ := ParseError.position_spec t
      exact ⟨_, t, b, parse_bytes_of_scan hscan limit, rfl, rfl, rfl, getElem?_of_scan hscan, hencode,
        fun n hn hvalid => Utf8.valid_take_le_of_scan hscan hn hvalid, hline, hcolumn⟩

/-- A string goes on behind a line feed, and ends within a sequence of three octets. -/
theorem parse_bytes_as_text_or_located_truncated :
    let bs : Bytes := [0x22, 0x0A, 0xC3, 0xA9, 0xE2, 0x82]
    ¬ Utf8.Valid bs ∧ parse 1 (.bytes bs) = .error (.malformed ⟨.invalidByte 0xE2, 4, 2, 2⟩)
      ∧ Utf8.Valid (bs.take 4) ∧ ∀ n ≤ 6, Utf8.Valid (bs.take n) → n ≤ 4 := by
  intro bs
  have hscan : Utf8.scan bs = ([.ofNat 0x22, .ofNat 0x0A, .ofNat 0xE9], [0xE2, 0x82]) := by decide
  have hinvalid : ¬ Utf8.Valid bs := by
    intro hvalid
    have := Utf8.valid_take_le_of_scan hscan (Nat.le_refl _) (by rwa [List.take_length])
    revert this
    decide
  have hparse : parse 1 (.bytes bs) = .error (.malformed ⟨.invalidByte 0xE2, 4, 2, 2⟩) :=
    parse_bytes_of_scan hscan 1
  obtain ⟨e, t, b, he, -, -, -, -, hencode, hlongest, -⟩ := (parse_bytes_as_text_or_located bs 1).2 hinvalid
  rw [hparse] at he
  cases he
  exact ⟨hinvalid, hparse, ⟨t, hencode⟩, hlongest⟩

end CanonJson
