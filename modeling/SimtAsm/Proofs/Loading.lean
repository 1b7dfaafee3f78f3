import SimtAsm.Proofs.AllOrNothing
import SimtAsm.Proofs.ControlFlow

namespace SimtAsm

namespace Word

theorem toNat_ofBytes (low high : UInt8) : (ofBytes low high).toNat = low.toNat + 256 * high.toNat := by
  have lowBound := low.toNat_lt
  have highBound := high.toNat_lt
  rw [ofBytes, BitVec.toNat_ofNat]
  omega

theorem lowByte_ofBytes (low high : UInt8) : (ofBytes low high).lowByte = low := by
  apply UInt8.toNat_inj.mp
  have lowBound := low.toNat_lt
  rw [lowByte, toNat_ofBytes, UInt8.toNat_ofNat']
  omega

theorem highByte_ofBytes (low high : UInt8) : (ofBytes low high).highByte = high := by
  apply UInt8.toNat_inj.mp
  have lowBound := low.toNat_lt
  have highBound := high.toNat_lt
  rw [highByte, toNat_ofBytes, UInt8.toNat_ofNat']
  omega

theorem toBytes_cons (word : Word) (rest : List Word) :
    toBytes (word :: rest) = word.lowByte :: word.highByte :: toBytes rest := rfl

theorem toBytes_drop (words : List Word) (count : Nat) :
    toBytes (words.drop count) = (toBytes words).drop (2 * count) := by
  induction count generalizing words with
  | zero => rfl
  | succ count ih =>
    cases words with
    | nil => simp [toBytes]
    | cons word rest => rw [List.drop_succ_cons, ih, toBytes_cons, Nat.mul_succ, List.drop_succ_cons,
        List.drop_succ_cons]

theorem toBytes_take (words : List Word) (count : Nat) :
    toBytes (words.take count) = (toBytes words).take (2 * count) := by
  induction count generalizing words with
  | zero => rfl
  | succ count ih =>
    cases words with
    | nil => simp [toBytes]
    | cons word rest => rw [List.take_succ_cons, toBytes_cons, ih, toBytes_cons, Nat.mul_succ, List.take_succ_cons,
        List.take_succ_cons]

theorem length_toBytes (words : List Word) : (toBytes words).length = 2 * words.length := by
  induction words with
  | nil => rfl
  | cons word rest ih =>
    simp only [toBytes_cons, List.length_cons, ih]
    omega

theorem length_le_one_of_no_pair {bytes : List UInt8} (short : ∀ low high rest, bytes = low :: high :: rest → False) :
    bytes.length ≤ 1 := by
  cases bytes with
  | nil => exact Nat.zero_le 1
  | cons low rest =>
    cases rest with
    | nil => exact le_rfl
    | cons high rest => exact (short low high rest rfl).elim

theorem length_listOfBytes (bytes : List UInt8) : (listOfBytes bytes).length = bytes.length / 2 := by
  fun_induction listOfBytes bytes with
  | case1 low high rest ih =>
    simp only [List.length_cons, ih]
    omega
  | case2 bytes short =>
    have atMostOne := length_le_one_of_no_pair short
    rw [List.length_nil]
    omega

/-- No byte is lost where every byte has its partner. -/
theorem toBytes_listOfBytes {bytes : List UInt8} (even : bytes.length % 2 = 0) :
    toBytes (listOfBytes bytes) = bytes := by
  fun_induction listOfBytes bytes with
  | case1 low high rest ih =>
    have evenRest : rest.length % 2 = 0 := by
      simp only [List.length_cons] at even
      omega
    rw [toBytes_cons, lowByte_ofBytes, highByte_ofBytes, ih evenRest]
  | case2 bytes short =>
    have atMostOne := length_le_one_of_no_pair short
    exact (List.eq_nil_of_length_eq_zero (by omega)).symm

/-- A word of a file is made of the two bytes at twice its index. -/
theorem bytes_of_getElem?_listOfBytes {bytes : List UInt8} {index : Nat} {word : Word}
    (found : (listOfBytes bytes)[index]? = some word) :
    ∃ low high, bytes[2 * index]? = some low ∧ bytes[2 * index + 1]? = some high ∧ word = ofBytes low high := by
  fun_induction listOfBytes bytes generalizing index with
  | case1 low high rest ih =>
    cases index with
    | zero =>
      cases found
      exact ⟨low, high, rfl, rfl, rfl⟩
    | succ index => exact ih found
  | case2 bytes short => simp at found

end Word

namespace Image

/-- The slice of a file that loading is asked for is inside the file. -/
structure Fits (bytes : List UInt8) (skip : Nat) (length? : Option Nat) : Prop where
  even : bytes.length % 2 = 0
  skip_le : skip ≤ bytes.length / 2
  length_le : ∀ length, length? = some length → length ≤ bytes.length / 2 - skip

/-- The fault that is reported: the first of the three that there is. -/
inductive Faults (bytes : List UInt8) (skip : Nat) (length? : Option Nat) : LoadError → Prop
  | odd : bytes.length % 2 ≠ 0 → Faults bytes skip length? .oddLength
  | skip : bytes.length % 2 = 0 → bytes.length / 2 < skip → Faults bytes skip length? .skipBeyondEnd
  | length {length : Nat} : bytes.length % 2 = 0 → skip ≤ bytes.length / 2 → length? = some length →
      bytes.length / 2 - skip < length → Faults bytes skip length? .lengthBeyondEnd

/-- How many words loading is asked for: all behind the skipped ones, where no length is given. -/
def requested (bytes : List UInt8) (skip : Nat) (length? : Option Nat) : Nat :=
  length?.getD (bytes.length / 2 - skip)

section Load

variable {bytes : List UInt8} {base skip : Nat} {length? : Option Nat}

theorem ofBytes_of_fits (fits : Fits bytes skip length?) :
    ofBytes bytes base skip length? =
      .ok ⟨base, ((Word.listOfBytes bytes).drop skip).take (requested bytes skip length?)⟩ := by
  unfold ofBytes
  dsimp only
  rw [if_neg (not_not.mpr fits.even), Word.length_listOfBytes, if_neg (not_lt.mpr fits.skip_le)]
  cases length? with
  | none =>
    -- Without a length nothing is cut off: as many words are asked for as there are behind the skipped ones.
    have whole : ((Word.listOfBytes bytes).drop skip).length ≤ requested bytes skip none := by
      rw [List.length_drop, Word.length_listOfBytes, requested, Option.getD_none]
    rw [List.take_of_length_le whole]
  | some length =>
    simp only [if_neg (not_lt.mpr (fits.length_le length rfl)), requested, Option.getD_some]

theorem ofBytes_of_faults {error : LoadError} (faults : Faults bytes skip length? error) :
    ofBytes bytes base skip length? = .error error := by
  unfold ofBytes
  dsimp only
  rw [Word.length_listOfBytes]
  cases faults with
  | odd odd => rw [if_pos odd]
  | skip even beyond => rw [if_neg (not_not.mpr even), if_pos beyond]
  | length even inside given beyond =>
    rw [if_neg (not_not.mpr even), if_neg (not_lt.mpr inside), given]
    simp only [if_pos beyond]

theorem fits_or_faults (bytes : List UInt8) (skip : Nat) (length? : Option Nat) :
    Fits bytes skip length? ∨ ∃ error, Faults bytes skip length? error := by
  -- The order of the cases is that of the checks: each fault needs the checks before its own to have passed.
  by_cases even : bytes.length % 2 = 0
  · by_cases inside : skip ≤ bytes.length / 2
    · by_cases bounded : ∀ length, length? = some length → length ≤ bytes.length / 2 - skip
      · exact .inl ⟨even, inside, bounded⟩
      · push Not at bounded
        obtain ⟨length, given, beyond⟩ := bounded
        exact .inr ⟨_, .length even inside given beyond⟩
    · exact .inr ⟨_, .skip even (not_le.mp inside)⟩
  · exact .inr ⟨_, .odd even⟩

theorem exists_ofBytes_iff : (∃ image, ofBytes bytes base skip length? = .ok image) ↔ Fits bytes skip length? := by
  constructor
  · rintro ⟨image, loaded⟩
    rcases fits_or_faults bytes skip length? with fits | ⟨error, faults⟩
    · exact fits
    · cases loaded.symm.trans (ofBytes_of_faults faults)
  · exact fun fits => ⟨_, ofBytes_of_fits fits⟩

theorem ofBytes_eq_error_iff {error : LoadError} :
    ofBytes bytes base skip length? = .error error ↔ Faults bytes skip length? error := by
  constructor
  · intro refused
    rcases fits_or_faults bytes skip length? with fits | ⟨error', faults⟩
    · cases refused.symm.trans (ofBytes_of_fits fits)
    · cases refused.symm.trans (ofBytes_of_faults faults)
      exact faults
  · exact ofBytes_of_faults

theorem length_slice (fits : Fits bytes skip length?) :
    (((Word.listOfBytes bytes).drop skip).take (requested bytes skip length?)).length =
      requested bytes skip length? := by
  rw [List.length_take, List.length_drop, Word.length_listOfBytes]
  apply Nat.min_eq_left
  cases length? with
  | none => exact le_rfl
  | some length => exact fits.length_le length rfl

end Load

theorem word?_eq_some_iff {image : Image} {address : Nat} {word : Word} :
    image.word? address = some word ↔ image.base ≤ address ∧ image.words[address - image.base]? = some word := by
  by_cases below : address < image.base
  · simp [word?, below, not_le.mpr below]
  · simp [word?, below, not_lt.mp below]

/-- All words of a file of words are loaded from it. -/
theorem ofBytes_toBytes (words : List Word) (base : Nat) :
    ofBytes (Word.toBytes words) base 0 none = .ok ⟨base, words⟩ := by
  have fits : Fits (Word.toBytes words) 0 none := by
    refine ⟨?_, Nat.zero_le _, by simp⟩
    rw [Word.length_toBytes]
    omega
  have whole : words.length ≤ requested (Word.toBytes words) 0 none := by
    rw [requested, Option.getD_none, Word.length_toBytes]
    omega
  rw [ofBytes_of_fits fits, Word.listOfBytes_toBytes, List.drop_zero, List.take_of_length_le whole]

end Image

namespace AssembleCommand

/-- A clean program goes into its binary image word by word. -/
theorem read_of_binary {options : Options} {files : Files} {source path : Text} {program : Program}
    (binary : options.format = .binary) (named : options.output? = some path)
    (writable : ∀ bytes, ∃ after, files.write path bytes = .ok after) (reads : options.Reads files source)
    (assembled : assemble source = .ok program) (clean : program.diagnostics = []) :
    ∃ words, program.words = .ok words ∧ (run options files).exitCode = 0 ∧
      (run options files).files.read path = .ok (Word.toBytes words) := by
  have writable' : ∀ path' bytes, options.output? = some path' → ∃ after, files.write path' bytes = .ok after := by
    intro path' bytes named'
    cases named.symm.trans named'
    exact writable bytes
  have accepts : options.Accepts program := ⟨fun _ => clean, fun _ => by simp [named]⟩
  have succeeded := (run_exitCode_eq_zero_iff writable').mpr ⟨source, program, reads, assembled, accepts⟩
  obtain ⟨_, after, ran, delivers⟩ := delivers_of_succeeded reads assembled succeeded
  rw [ran]
  cases delivers with
  | printed unnamed _ => cases named.symm.trans unnamed
  | wrote target emits written =>
    cases named.symm.trans target
    rw [binary] at emits
    cases emits with
    | binary found => exact ⟨_, found, rfl, (Files.wrote_of_write written).read⟩

end AssembleCommand

namespace Image

/-- Loading takes exactly the slice of a file that it is asked for. It succeeds just when the file is one of words with
the slice inside, and else reports the first of the three faults. A loaded image has the words of the slice, in the
bytes they have in the file, and a word at just the addresses from its base on for as many as there are. What was
written as words is loaded as these words, so a binary image that the assembler wrote is loaded as the words of its
program. -/
theorem ofBytes_takes_slice :
    (∀ (bytes : List UInt8) (base skip : Nat) (length? : Option Nat),
      ((∃ image, ofBytes bytes base skip length? = .ok image) ↔ Fits bytes skip length?) ∧
      (∀ error, ofBytes bytes base skip length? = .error error ↔ Faults bytes skip length? error) ∧
      ∀ image, ofBytes bytes base skip length? = .ok image →
        image.base = base ∧ image.words.length = requested bytes skip length? ∧
        Word.toBytes image.words = (bytes.drop (2 * skip)).take (2 * requested bytes skip length?) ∧
        ∀ address,
          ((∃ word, image.word? address = some word) ↔
            base ≤ address ∧ address < base + requested bytes skip length?) ∧
          ∀ word, image.word? address = some word → ∃ low high,
            bytes[2 * (skip + (address - base))]? = some low ∧ bytes[2 * (skip + (address - base)) + 1]? = some high ∧
            word.toNat = low.toNat + 256 * high.toNat) ∧
      (∀ words, Word.listOfBytes (Word.toBytes words) = words ∧
        ∀ base, ofBytes (Word.toBytes words) base 0 none = .ok ⟨base, words⟩) ∧
      ∀ (options : AssembleCommand.Options) (files : Files) (source path : Text) (program : Program) (base : Nat),
        options.format = .binary → options.output? = some path →
        (∀ bytes, ∃ after, files.write path bytes = .ok after) → options.Reads files source →
        assemble source = .ok program → program.diagnostics = [] →
        ∃ words bytes, program.words = .ok words ∧
          (AssembleCommand.run options files).files.read path = .ok bytes ∧
          ofBytes bytes base 0 none = .ok ⟨base, words⟩ := by
  refine ⟨?_, fun words => ⟨Word.listOfBytes_toBytes words, ofBytes_toBytes words⟩, ?_⟩
  · intro bytes base skip length?
    refine ⟨exists_ofBytes_iff, fun error => ofBytes_eq_error_iff, ?_⟩
    intro image loaded
    have fits := exists_ofBytes_iff.mp ⟨image, loaded⟩
    have sized := length_slice fits
    cases loaded.symm.trans (ofBytes_of_fits fits)
    refine ⟨rfl, sized, ?_, ?_⟩
    · rw [Word.toBytes_take, Word.toBytes_drop, Word.toBytes_listOfBytes fits.even]
    · intro address
      refine ⟨by rw [← mapped_iff_word?, Mapped, sized], ?_⟩
      intro word found
      obtain ⟨_, atOffset⟩ := word?_eq_some_iff.mp found
      have inSlice : address - base < requested bytes skip length? := by
        obtain ⟨inside, _⟩ := List.getElem?_eq_some_iff.mp atOffset
        rwa [sized] at inside
      rw [List.getElem?_take_of_lt inSlice, List.getElem?_drop] at atOffset
      obtain ⟨low, high, lowAt, highAt, rfl⟩ := Word.bytes_of_getElem?_listOfBytes atOffset
      exact ⟨low, high, lowAt, highAt, Word.toNat_ofBytes low high⟩
  · intro options files source path program base binary named writable reads assembled clean
    obtain ⟨words, found, _, left⟩ :=
      AssembleCommand.read_of_binary binary named writable reads assembled clean
    exact ⟨words, _, found, left, ofBytes_toBytes words base⟩

/-- Two words in the middle of a file, a skip behind its end, and the image of a source of one instruction. -/
theorem ofBytes_takes_slice_inside :
    (∃ image, ofBytes [0x05, 0x91, 0x11, 0x32, 0x00, 0xF0, 0x00, 0x00] 7 1 (some 2) = .ok image ∧
      image.words.length = 2 ∧ Word.toBytes image.words = [0x11, 0x32, 0x00, 0xF0] ∧
      (∃ word, image.word? 8 = some word) ∧ ¬∃ word, image.word? 9 = some word) ∧
    ofBytes [0x05, 0x91, 0x11, 0x32, 0x00, 0xF0, 0x00, 0x00] 7 5 none = .error .skipBeyondEnd ∧
    ∃ files bytes, (AssembleCommand.run ⟨"a.s", some "b", .binary, false⟩ files).files.read "b" = .ok bytes ∧
      ofBytes bytes 7 0 none = .ok ⟨7, [0xF000#16]⟩ := by
  obtain ⟨slices, _, images⟩ := ofBytes_takes_slice
  obtain ⟨loads, _, loaded⟩ := slices [0x05, 0x91, 0x11, 0x32, 0x00, 0xF0, 0x00, 0x00] 7 1 (some 2)
  obtain ⟨_, refused, _⟩ := slices [0x05, 0x91, 0x11, 0x32, 0x00, 0xF0, 0x00, 0x00] 7 5 none
  obtain ⟨image, found⟩ := loads.mpr ⟨rfl, by decide, by simp⟩
  obtain ⟨_, sized, same, mapped⟩ := loaded image found
  have outside : ¬∃ word, image.word? 9 = some word := fun present => absurd ((mapped 9).1.mp present) (by decide)
  refine ⟨⟨image, found, sized, same, (mapped 8).1.mpr (by decide), outside⟩,
    (refused _).mpr (.skip rfl (by decide)), ?_⟩
  let files : Files := ⟨(∅ : Std.ExtTreeMap (List Text) Node).insert ["a.s"] (.file (Text.toUtf8 "RET")), []⟩
  have assembled : assemble "RET" = .ok (.ofPlacement ⟨SymbolTable.empty, ["RET"]⟩) := rfl
  obtain ⟨words, bytes, made, left, back⟩ := images ⟨"a.s", some "b", .binary, false⟩ files "RET" "b" _ 7 rfl rfl
    (fun _ => ⟨_, rfl⟩) ⟨_, rfl, rfl⟩ assembled rfl
  cases made
  exact ⟨files, bytes, left, back⟩

end Image

end SimtAsm
