import SimtAsm.Command.Inspect
import SimtAsm.Proofs.Addresses
import SimtAsm.Proofs.ControlFlow
import SimtAsm.Proofs.Effects

namespace SimtAsm

open Numeral Source

namespace Image

/-- How many addresses from `start` on have a word, one after the other. -/
def mappedFrom (image : Image) (start : Nat) : Nat :=
  if start < image.base then 0 else image.base + image.words.length - start

theorem mappedFrom_of_unmapped {image : Image} {start : Nat} (unmapped : ¬image.Mapped start) :
    image.mappedFrom start = 0 := by
  unfold mappedFrom
  split
  · rfl
  · rename_i above
    have beyond : ¬start < image.base + image.words.length := fun inside => unmapped ⟨Nat.not_lt.mp above, inside⟩
    omega

theorem mappedFrom_of_mapped {image : Image} {start : Nat} (mapped : image.Mapped start) :
    image.mappedFrom start = image.mappedFrom (start + 1) + 1 := by
  obtain ⟨above, inside⟩ := mapped
  rw [mappedFrom, mappedFrom, if_neg (by omega), if_neg (by omega)]
  omega

theorem mappedFrom_le (image : Image) (start : Nat) : image.mappedFrom start ≤ image.words.length := by
  unfold mappedFrom
  split <;> omega

theorem le_mappedFrom_iff {image : Image} {start count : Nat} :
    count ≤ image.mappedFrom start ↔ ∀ i < count, image.Mapped (start + i) := by
  unfold mappedFrom
  constructor
  · intro small i below
    split at small
    · omega
    · exact ⟨by omega, by omega⟩
  · intro all
    cases count with
    | zero => exact Nat.zero_le _
    | succ count =>
      have first := (all 0 (Nat.succ_pos count)).1
      have last := (all count (Nat.lt_succ_self count)).2
      rw [if_neg (by omega)]
      omega

/-- A word as it is shown: its instruction, with names for the targets that have one, or the word as data if it does not
decode. -/
def wordText (name? : Nat → Option Text) (word : Word) : Text :=
  match decode word with
  | .ok d => d.text name?
  | .error _ => ".word 0x" ++ word.hex

/-- A line of a window, which has no names for targets. -/
def wordLine (showBits : Bool) (address : Nat) (word : Word) : Text :=
  Address.text address ++ ": " ++ (if showBits then word.binary ++ "  " else []) ++ wordText (fun _ => none) word

def unmappedLine (address : Nat) : Text := Address.text address ++ ": <oob>"

theorem line?_of_word {image : Image} {address : Nat} {word : Word} (found : image.word? address = some word)
    (showBits : Bool) (name? : Nat → Option Text) : image.line? showBits name? address =
      some (Address.text address ++ ": " ++ (if showBits then word.binary ++ "  " else []) ++ wordText name? word) := by
  rw [line?, found]
  rfl

theorem line?_of_none {image : Image} {address : Nat} (missing : image.word? address = none) (showBits : Bool) :
    image.line? showBits (fun _ => none) address = none := by
  rw [line?, missing]

/-- Where names are tokens, a word is shown as a statement that is no declaration of a label. -/
theorem wordText_isStatement {name? : Nat → Option Text}
    (plain : ∀ {address name}, name? address = some name → IsPlainToken name) (word : Word) :
    IsStatement (wordText name? word) ∧ (wordText name? word).getLast? ≠ some ':' := by
  unfold wordText
  split
  · rename_i d _
    apply Decoded.text_isStatement
    intro _
    cases found : name? d.target with
    | some name => exact plain found
    | none => exact decimal_isPlainToken d.target
  · have text : ".word 0x" ++ word.hex = spelled ".word" ["0x" ++ word.hex] := by simp [spelled, Text.join]
    have digits : IsPlainToken word.hex := padded_isPlainToken (by decide) (by decide) _ _
    have number : IsPlainToken ("0x" ++ word.hex) :=
      (digits.cons (by decide : isPlain 'x' = true)).cons (by decide : isPlain '0' = true)
    rw [text]
    apply spelled_isStatement ⟨by decide, List.all_eq_true.mp (by decide)⟩
    exact List.forall_mem_singleton.mpr number

theorem newline_notMem_wordLine (showBits : Bool) (address : Nat) (word : Word) :
    '\n' ∉ wordLine showBits address word := by
  have bits : '\n' ∉ (if showBits then word.binary ++ "  " else [] : Text) := by
    split
    · exact newline_notMem_append (padded_isPlainToken (by decide) (by decide) _ _).newline_notMem (by decide)
    · exact List.not_mem_nil
  have start := newline_notMem_append (Address.newline_notMem_text address) (by decide : '\n' ∉ (": " : Text))
  have statement := (@wordText_isStatement (fun _ => none) (by simp) word).1
  exact newline_notMem_surround start bits statement.newline_notMem

/-- The loop over a window between two rounds. -/
structure WindowState where
  next : Nat
  printed : List Text
  /-- An address without a word has been met. -/
  ended : Bool

namespace WindowState

def ofStart (start : Nat) : WindowState := ⟨start, [], false⟩

/-- One round of the loop, if there is one left. The address moves on first, and that is checked; then a line is printed
for the address it stood at. -/
def round? (image : Image) (showBits : Bool) (stop : Nat) (state : WindowState) : Option (Checked WindowState) :=
  if state.ended ∨ stop ≤ state.next then none
  else some do
    let next ← addAddress state.next 1
    match image.line? showBits (fun _ => none) state.next with
    | some line => return ⟨next, state.printed ++ [line], false⟩
    | none => return ⟨next, state.printed ++ [unmappedLine state.next], true⟩

/-- The loop goes from a state to its end in so many rounds, none of which overflows. -/
inductive Rounds (image : Image) (showBits : Bool) (stop : Nat) : Nat → WindowState → WindowState → Prop
  | done {state : WindowState} : state.round? image showBits stop = none → Rounds image showBits stop 0 state state
  | next {state after last : WindowState} {count : Nat} : state.round? image showBits stop = some (.ok after) →
      Rounds image showBits stop count after last → Rounds image showBits stop (count + 1) state last

section Run

variable {image : Image} {showBits : Bool} {stop : Nat}

theorem round?_of_reached {state : WindowState} (reached : stop ≤ state.next) :
    state.round? image showBits stop = none := by
  rw [round?, if_pos (.inr reached)]

theorem round?_of_ended {state : WindowState} (ended : state.ended = true) :
    state.round? image showBits stop = none := by
  rw [round?, if_pos (.inl ended)]

variable {next : Nat} {printed : List Text} (inside : next < stop) (bounded : stop < addressLimit)
include inside bounded

/-- The end of the window is an address, so the one behind any address before it is another. -/
theorem addAddress_of_inside : addAddress next 1 = .ok (next + 1) := by
  rw [addAddress, if_pos (by omega)]

theorem round?_of_some {line : Text} (shown : image.line? showBits (fun _ => none) next = some line) :
    round? image showBits stop ⟨next, printed, false⟩ = some (.ok ⟨next + 1, printed ++ [line], false⟩) := by
  rw [round?, if_neg (by simpa using inside)]
  simp only [addAddress_of_inside inside bounded, shown]
  rfl

theorem round?_of_none (missing : image.line? showBits (fun _ => none) next = none) :
    round? image showBits stop ⟨next, printed, false⟩ =
      some (.ok ⟨next + 1, printed ++ [unmappedLine next], true⟩) := by
  rw [round?, if_neg (by simpa using inside)]
  simp only [addAddress_of_inside inside bounded, missing]
  rfl

end Run

/-- The rounds print the lines of the window one by one. -/
theorem rounds_window (image : Image) (showBits : Bool) {stop count next : Nat} (printed : List Text)
    (reaches : next + count = stop) (bounded : stop < addressLimit) :
    ∃ last, Rounds image showBits stop (image.window showBits next count).length ⟨next, printed, false⟩ last ∧
      last.printed = printed ++ image.window showBits next count := by
  induction count generalizing next printed with
  | zero => exact ⟨_, .done (round?_of_reached (Nat.le_of_eq reaches.symm)), (List.append_nil printed).symm⟩
  | succ count ih =>
    have inside : next < stop := by omega
    cases shown : image.line? showBits (fun _ => none) next with
    | none =>
      have lines : image.window showBits next (count + 1) = [unmappedLine next] := by
        rw [window, shown]
        rfl
      rw [lines]
      exact ⟨_, .next (round?_of_none inside bounded shown) (.done (round?_of_ended rfl)), rfl⟩
    | some line =>
      have lines : image.window showBits next (count + 1) = line :: image.window showBits (next + 1) count := by
        rw [window, shown]
      obtain ⟨last, rounds, same⟩ := @ih (next + 1) (printed ++ [line]) (by omega)
      rw [lines]
      refine ⟨last, .next (round?_of_some inside bounded shown) rounds, ?_⟩
      rw [same, List.append_assoc, List.singleton_append]

end WindowState

/-- The lines of a window: those of its words up to the first address that has none, and a line for that one. -/
theorem exists_window (image : Image) (showBits : Bool) (start count : Nat) :
    ∃ words : List Word, words.length = min count (image.mappedFrom start) ∧
      (∀ i word, words[i]? = some word → image.word? (start + i) = some word) ∧
      image.window showBits start count = words.mapIdx (fun i word => wordLine showBits (start + i) word) ++
        if words.length < count then [unmappedLine (start + words.length)] else [] := by
  induction count generalizing start with
  | zero => exact ⟨[], by simp, by simp, rfl⟩
  | succ count ih =>
    cases found : image.word? start with
    | none =>
      have unmapped : ¬image.Mapped start := by simp [mapped_iff_word?, found]
      refine ⟨[], by simp [mappedFrom_of_unmapped unmapped], by simp, ?_⟩
      rw [window, line?_of_none found]
      simp [unmappedLine]
    | some word =>
      have mapped : image.Mapped start := mapped_iff_word?.mpr ⟨word, found⟩
      obtain ⟨words, length, each, lines⟩ := ih (start + 1)
      refine ⟨word :: words, ?_, ?_, ?_⟩
      · rw [List.length_cons, length, mappedFrom_of_mapped mapped]
        omega
      · intro i other atIndex
        cases i with
        | zero =>
          cases atIndex
          exact found
        | succ i =>
          have later := each i other atIndex
          rwa [Nat.add_assoc, Nat.add_comm 1 i] at later
      · have shift : ∀ i, start + 1 + i = start + (i + 1) := by omega
        have line : image.line? showBits (fun _ => none) start = some (wordLine showBits start word) :=
          line?_of_word found showBits _
        rw [window, line]
        simp only [lines, shift, List.mapIdx_cons, Nat.add_zero, List.length_cons, Nat.add_lt_add_iff_right,
          List.cons_append]

theorem newline_notMem_of_mem_window {image : Image} {showBits : Bool} {start count : Nat} :
    ∀ line ∈ image.window showBits start count, '\n' ∉ line := by
  obtain ⟨words, _, _, lines⟩ := exists_window image showBits start count
  rw [lines]
  intro line member
  rcases List.mem_append.mp member with shown | unmapped
  · obtain ⟨i, _, rfl⟩ := List.mem_mapIdx.mp shown
    exact newline_notMem_wordLine showBits _ _
  · split at unmapped
    · rw [List.mem_singleton.mp unmapped]
      exact newline_notMem_append (Address.newline_notMem_text _) (by decide)
    · cases unmapped

theorem length_window_le (image : Image) (showBits : Bool) (start count : Nat) :
    (image.window showBits start count).length ≤ image.words.length + 1 := by
  obtain ⟨words, length, _, lines⟩ := exists_window image showBits start count
  have bound := image.mappedFrom_le start
  rw [lines, List.length_append, List.length_mapIdx]
  split <;> simp only [List.length_cons, List.length_nil] <;> omega

end Image

namespace InspectCommand

theorem print_window (image : Image) {start stop : Nat} {startText stopText : Text} (showBits : Bool)
    (readStart : Address.ofText startText = .ok start) (readStop : Address.ofText stopText = .ok stop)
    (ordered : start ≤ stop) :
    (Action.window startText stopText showBits).print image =
      .ok (.ok (Text.ofLines (image.window showBits start (stop - start)))) := by
  have text : windowText image startText stopText showBits =
      .ok (Text.ofLines (image.window showBits start (stop - start))) := by
    simp only [windowText, readAddress, readStart, readStop, bind, Except.bind, if_neg (Nat.not_lt.mpr ordered)]
    rfl
  exact congrArg Except.ok text

/-- What an action prints for the image that is loaded goes to standard output where no file is named. -/
theorem run_of_print {options : Options} {files : Files} {bytes : List UInt8} {image : Image} {text : Text}
    (read : files.read options.input = .ok bytes)
    (loaded : Image.ofBytes bytes options.base options.skip options.length? = .ok image)
    (printed : options.action.print image = .ok (.ok text)) (unnamed : options.output? = none) :
    run options files = .ok ⟨0, text, [], files⟩ := by
  let before : Host := ⟨files, [], []⟩
  have contents : exec (readFile options.input : ExceptT Failure (ExceptT Overflow (StateM Host)) _).run before =
      (.ok (.ok (.ok bytes)), before) := by
    rw [← read]
    rfl
  have found : exec (readImage options : ExceptT Failure (ExceptT Overflow (StateM Host)) _).run before =
      (.ok (.ok image), before) := by
    simp only [readImage, ExceptT.run_bind, exec_bind, contents, loaded]
    rfl
  have ran : exec (main options).run before = (.ok (.ok ()), ⟨files, text, []⟩) := by
    simp only [main, ExceptT.run_bind, exec_bind, found, printed, unnamed]
    rfl
  rw [run, ran]
  rfl

/-- The command that prints a window shows the words from its start on, as many as follow each other there and as the
window has room for, and a line for the next address if the window goes on to it. The loop does at most one round more
than the image has words, however wide the window is, and none of the addresses it computes overflows. -/
theorem window_exact (image : Image) (showBits : Bool) {start stop : Nat} (ordered : start ≤ stop)
    (bounded : stop < addressLimit) :
    (∀ count, count ≤ image.mappedFrom start ↔ ∀ i < count, ∃ word, image.word? (start + i) = some word) ∧
    ∃ (words : List Word) (lines : List Text), words.length = min (stop - start) (image.mappedFrom start) ∧
      (∀ i word, words[i]? = some word → image.word? (start + i) = some word) ∧
      lines = words.mapIdx (fun i word => Image.wordLine showBits (start + i) word) ++
        (if words.length < stop - start then [Image.unmappedLine (start + words.length)] else []) ∧
      (Text.ofLines lines).lines = lines ++ [[]] ∧
      (∃ rounds last, Image.WindowState.Rounds image showBits stop rounds (.ofStart start) last ∧ last.printed = lines ∧
        rounds ≤ image.words.length + 1) ∧
      ∀ startText stopText, Address.ofText startText = .ok start → Address.ofText stopText = .ok stop →
        (Action.window startText stopText showBits).print image = .ok (.ok (Text.ofLines lines)) ∧
        ∀ (options : Options) (files : Files) (bytes : List UInt8), files.read options.input = .ok bytes →
          Image.ofBytes bytes options.base options.skip options.length? = .ok image →
          options.action = .window startText stopText showBits → options.output? = none →
          run options files = .ok ⟨0, Text.ofLines lines, [], files⟩ := by
  refine ⟨?_, ?_⟩
  · intro count
    simp only [Image.le_mappedFrom_iff, Image.mapped_iff_word?]
  · obtain ⟨words, length, each, shape⟩ := image.exists_window showBits start (stop - start)
    obtain ⟨last, rounds, printed⟩ :=
      Image.WindowState.rounds_window image showBits [] (Nat.add_sub_of_le ordered) bounded
    refine ⟨words, image.window showBits start (stop - start), length, each, shape,
      Text.lines_ofLines Image.newline_notMem_of_mem_window,
      ⟨_, last, rounds, printed, image.length_window_le showBits start (stop - start)⟩, ?_⟩
    intro startText stopText readStart readStop
    have shown := print_window image showBits readStart readStop ordered
    refine ⟨shown, ?_⟩
    intro options files bytes read loaded action unnamed
    exact run_of_print read loaded (action ▸ shown) unnamed

/-- A window at the end of an image that reaches the end of the address space, and a window as wide as that space on an
image of one word. -/
theorem window_exact_widest :
    (Action.window "18446744073709551614" "0xFFFFFFFFFFFFFFFF" false).print
        ⟨0xFFFFFFFFFFFFFFFE, [0xF000#16, 0xA000#16]⟩ = .ok (.ok (Text.ofLines ["0xfffffffffffffffe: RET"])) ∧
      ∃ rounds last, Image.WindowState.Rounds ⟨0, [0xA000#16]⟩ false 0xFFFFFFFFFFFFFFFF rounds (.ofStart 0) last ∧
        last.printed = ["0x00: .word 0xa000", "0x01: <oob>"] ∧ rounds ≤ 2 := by
  refine ⟨?_, ?_⟩
  · obtain ⟨_, words, lines, length, each, shape, _, _, prints⟩ := @window_exact
      ⟨0xFFFFFFFFFFFFFFFE, [0xF000#16, 0xA000#16]⟩ false 0xFFFFFFFFFFFFFFFE 0xFFFFFFFFFFFFFFFF (by decide) (by decide)
    obtain ⟨word, rfl⟩ := List.length_eq_one_iff.mp (length.trans (by decide))
    obtain rfl : 0xF000#16 = word := Option.some.inj (each 0 word rfl)
    rw [(prints _ _ rfl rfl).1, shape]
    rfl
  · obtain ⟨_, words, lines, length, each, shape, _, ⟨rounds, last, run, printed, few⟩, _⟩ := @window_exact
      ⟨0, [0xA000#16]⟩ false 0 0xFFFFFFFFFFFFFFFF (by decide) (by decide)
    obtain ⟨word, rfl⟩ := List.length_eq_one_iff.mp (length.trans (by decide))
    obtain rfl : 0xA000#16 = word := Option.some.inj (each 0 word rfl)
    exact ⟨rounds, last, run, printed.trans shape, few⟩

end InspectCommand

end SimtAsm
