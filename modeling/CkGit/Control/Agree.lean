import CkGit.Control.Model
import CkGit.Ci.JobCodec

/-!
# The three control boundaries

The SSH dispatcher accepts a bare-token command exactly when the operation
table does, and the daemon reads the forwarding client's line back exactly when
its arguments are ASCII.
-/
namespace CkGit.Control
open CkGit.Base CkGit.Ci

/-- Words, each after a space. -/
def spaced (words : List Bytes) : Bytes := words.flatMap fun word => space :: word

@[simp] theorem spaced_cons (word : Bytes) (rest : List Bytes) :
    spaced (word :: rest) = space :: word ++ spaced rest := rfl

theorem takeWhile_word {word : Bytes} (clean : space ∉ word) (words : List Bytes) :
    (word ++ spaced words).takeWhile (· != space) = word := by
  have all : ∀ byte ∈ word, (byte != space) = true := fun byte member =>
    bne_iff_ne.mpr fun same => clean (same ▸ member)
  rw [List.takeWhile_append_of_pos all]
  cases words with
  | nil => simp [spaced]
  | cons => simp

theorem dropWhile_word {word : Bytes} (clean : space ∉ word) (words : List Bytes) :
    (word ++ spaced words).dropWhile (· != space) = spaced words := by
  have all : ∀ byte ∈ word, (byte != space) = true := fun byte member =>
    bne_iff_ne.mpr fun same => clean (same ▸ member)
  rw [List.dropWhile_append_of_pos all]
  cases words with
  | nil => rfl
  | cons => simp

theorem splitOn_spaced {first : Bytes} {words : List Bytes}
    (clean : ∀ word ∈ first :: words, space ∉ word) :
    (first ++ spaced words).splitOn space = first :: words := by
  induction words generalizing first with
  | nil =>
    rw [spaced, List.flatMap_nil, List.append_nil]
    exact List.splitOn_eq_singleton (clean first List.mem_cons_self)
  | cons word rest ih =>
    rw [spaced_cons, List.cons_append,
      List.splitOn_append_cons_self_of_not_mem (clean first List.mem_cons_self),
      ih fun other member => clean other (List.mem_cons_of_mem _ member)]

/-- A word the dispatcher takes without quotes. -/
def BareToken (word : Bytes) : Prop := word ≠ [] ∧ word.all allowedBareTokenCharacter

theorem BareToken.clean {word : Bytes} (h : BareToken word) : space ∉ word := by
  intro member
  have allowed := List.all_eq_true.mp h.2 space member
  exact absurd allowed (by decide)

theorem BareToken.head {word : Bytes} (h : BareToken word) :
    ∃ first rest, word = first :: rest ∧ first ≠ quote ∧ first ≠ space := by
  obtain ⟨filled, all⟩ := h
  cases word with
  | nil => exact absurd rfl filled
  | cons first rest =>
    have allowed := List.all_eq_true.mp all first List.mem_cons_self
    refine ⟨first, rest, rfl, ?_, ?_⟩
    · rintro rfl
      exact absurd allowed (by decide)
    · rintro rfl
      exact absurd allowed (by decide)

theorem readToken_bare {word : Bytes} (h : BareToken word) (words : List Bytes) :
    readToken (word ++ spaced words) = .ok ({ value := word }, spaced words) := by
  obtain ⟨first, rest, shape, notQuote, _⟩ := h.head
  have unquoted : (word ++ spaced words).head? ≠ some quote := by
    rw [shape]
    simpa using notQuote
  have allowed : ¬ word.any fun character => !allowedBareTokenCharacter character := by
    simpa using h.2
  have filled : ¬ word.isEmpty := by simpa using h.1
  rw [readToken, if_neg unquoted]
  simp only [bareToken, takeWhile_word h.clean, dropWhile_word h.clean, bind_ok, pure_ok]
  exact ⟨(), rejectIf_ok.mpr allowed, (), rejectIf_ok.mpr filled, trivial⟩

theorem skipSpaces_bare {word : Bytes} (h : BareToken word) (words : List Bytes) :
    skipSpaces (spaced (word :: words)) = .ok (word ++ spaced words) := by
  obtain ⟨first, rest, shape, _, notSpace⟩ := h.head
  have after : (spaced (word :: words)).dropWhile (· == space) = word ++ spaced words := by
    rw [spaced_cons, shape]
    simp [notSpace]
  have starts : ¬ (spaced (word :: words)).head? ≠ some space := by simp
  have filled : ¬ (word ++ spaced words).isEmpty := by simp [shape]
  simp only [skipSpaces, after, bind_ok, pure_ok]
  exact ⟨(), rejectIf_ok.mpr starts, (), rejectIf_ok.mpr filled, trivial⟩

/-- The tokens after the first, up to the limit. -/
theorem tokensFrom_bare {words : List Bytes} {fuel held : Nat}
    (bare : ∀ word ∈ words, BareToken word) (later : 0 < held) (enough : words.length ≤ fuel)
    (room : held + words.length ≤ kMaximumCommandTokens) :
    tokensFrom fuel held (spaced words) = .ok (words.map fun value => { value }) := by
  induction words generalizing fuel held with
  | nil => cases fuel <;> rfl
  | cons word rest ih =>
    cases fuel with
    | zero => simp at enough
    | succ fuel =>
      simp only [List.length_cons] at enough room
      have next : tokensFrom fuel (held + 1) (spaced rest) = .ok (rest.map fun value => { value }) :=
        ih (fun other member => bare other (List.mem_cons_of_mem _ member)) (by omega) (by omega)
          (by omega)
      have first := bare word List.mem_cons_self
      have few : ¬ held + 1 > kMaximumCommandTokens := by omega
      have some_byte : (spaced (word :: rest)).isEmpty = false := rfl
      have more : held ≠ 0 := by omega
      unfold tokensFrom
      simp only [some_byte, Bool.false_eq_true, if_false, if_neg more, bind_ok, pure_ok,
        Prod.exists]
      exact ⟨_, skipSpaces_bare first rest, _, _, readToken_bare first rest, (),
        rejectIf_ok.mpr few, _, next, rfl⟩

theorem tokensFrom_first {word : Bytes} (h : BareToken word) (fuel : Nat) (words : List Bytes) :
    tokensFrom (fuel + 1) 0 (word ++ spaced words)
      = (tokensFrom fuel 1 (spaced words)).map ({ value := word } :: ·) := by
  obtain ⟨first, rest, shape, _, _⟩ := h.head
  have some_byte : (word ++ spaced words).isEmpty = false := by simp [shape]
  have few : ¬ 0 + 1 > kMaximumCommandTokens := by decide
  conv_lhs => unfold tokensFrom
  simp only [some_byte, Bool.false_eq_true, if_false, if_true, bind, Except.bind,
    readToken_bare h, rejectIf, if_neg few]
  cases tokensFrom fuel (0 + 1) (spaced words) <;> rfl

/-- Past the limit the command is refused. -/
theorem tokensFrom_many {words : List Bytes} {fuel held : Nat} {tokens : List Token}
    (bare : ∀ word ∈ words, BareToken word) (later : 0 < held)
    (many : kMaximumCommandTokens < held + words.length) (started : held ≤ kMaximumCommandTokens) :
    tokensFrom fuel held (spaced words) ≠ .ok tokens := by
  induction words generalizing fuel held tokens with
  | nil =>
    simp only [List.length_nil] at many
    omega
  | cons word rest ih =>
    intro accepted
    cases fuel with
    | zero => cases accepted
    | succ fuel =>
      have first := bare word List.mem_cons_self
      have some_byte : (spaced (word :: rest)).isEmpty = false := rfl
      have more : held ≠ 0 := by omega
      unfold tokensFrom at accepted
      simp only [some_byte, Bool.false_eq_true, if_false, if_neg more, skipSpaces_bare first rest,
        readToken_bare first rest, bind_ok, pure_ok, Except.ok.injEq, exists_eq_left',
        rejectIf_ok, Prod.exists, Prod.mk.injEq] at accepted
      obtain ⟨_, _, ⟨rfl, rfl⟩, _, few, others, next, _⟩ := accepted
      simp only [List.length_cons] at many
      have bareRest : ∀ word ∈ rest, BareToken word := fun other member =>
        bare other (List.mem_cons_of_mem _ member)
      exact ih bareRest (by omega) (by omega) (by omega) next

/-- The bare command of an operation. -/
def rpcText (operation : Bytes) (arguments : List Bytes) : Bytes :=
  ascii "ckgit-rpc 1 " ++ operation ++ spaced arguments

theorem rpcText_words (operation : Bytes) (arguments : List Bytes) :
    rpcText operation arguments
      = ascii "ckgit-rpc" ++ spaced (ascii "1" :: operation :: arguments) := by
  have start : ascii "ckgit-rpc 1 " = ascii "ckgit-rpc" ++ space :: ascii "1" ++ [space] := by decide
  rw [rpcText, start]
  simp

theorem isValidControlOperation_few {operation : Bytes} {arguments : List Bytes}
    (h : isValidControlOperation operation arguments) :
    arguments.length ≤ kMaximumControlArguments := by
  have arity : ∀ entry ∈ kOperations, entry.arguments.length ≤ kMaximumControlArguments := by decide
  unfold isValidControlOperation at h
  split at h
  · cases h
  · rename_i grammar found
    simp only [Bool.and_eq_true, beq_iff_eq] at h
    have := arity grammar (List.mem_of_find?_eq_some found)
    omega

theorem rpcCommand_bare (operation : Bytes) (arguments : List Bytes) (command : SshCommand) :
    rpcCommand { value := ascii "1" } { value := operation } (arguments.map fun value => { value })
        = .ok command
      ↔ isValidControlOperation operation arguments ∧ command = .rpc operation arguments := by
  have values : (arguments.map fun value => ({ value } : Token)).map (·.value) = arguments := by
    simp [Function.comp_def]
  have unquoted : ¬ ((({ value := operation } : Token)
      :: arguments.map fun value => ({ value } : Token)).any (·.quoted)) := by
    simp
  simp only [rpcCommand, values, bind_ok, rejectIf_ok, pure_ok]
  constructor
  · rintro ⟨_, _, _, _, _, valid, rfl⟩
    exact ⟨not_not.mp valid, rfl⟩
  · rintro ⟨valid, rfl⟩
    exact ⟨(), by simp, (), unquoted, (), not_not.mpr valid, rfl⟩

/-- The dispatcher accepts a bare command exactly when the table does, and reads it as written. -/
theorem parseSshOriginalCommand_bare {operation : Bytes} {arguments : List Bytes}
    (bare : ∀ word ∈ operation :: arguments, BareToken word)
    (fits : (rpcText operation arguments).length ≤ 1024) (command : SshCommand) :
    parseSshOriginalCommand (rpcText operation arguments) = .ok command
      ↔ isValidControlOperation operation arguments ∧ command = .rpc operation arguments := by
  have first : BareToken (ascii "ckgit-rpc") := by
    constructor <;> decide
  have one : BareToken (ascii "1") := by
    constructor <;> decide
  have words : ∀ word ∈ ascii "1" :: operation :: arguments, BareToken word := by
    intro word member
    rcases List.mem_cons.mp member with rfl | later
    · exact one
    · exact bare word later
  have size : ¬ ((rpcText operation arguments).isEmpty ∨ (rpcText operation arguments).length > 1024) := by
    rintro (empty | long)
    · simp [rpcText, ascii] at empty
    · omega
  obtain ⟨fuel, length⟩ : ∃ fuel, (rpcText operation arguments).length = fuel + 1 := by
    refine ⟨(rpcText operation arguments).length - 1, ?_⟩
    simp [rpcText_words, ascii]
  have start : tokenize (rpcText operation arguments)
      = (tokensFrom fuel 1 (spaced (ascii "1" :: operation :: arguments))).map
        ({ value := ascii "ckgit-rpc" } :: ·) := by
    rw [tokenize, rejectIf, if_neg size, length, rpcText_words]
    simp only [bind, Except.bind]
    exact tokensFrom_first first fuel _
  have enough : (ascii "1" :: operation :: arguments).length ≤ fuel := by
    have pieces : (spaced arguments).length ≥ arguments.length := by
      clear * -
      induction arguments with
      | nil => simp
      | cons word rest ih => simp only [spaced_cons, List.length_append, List.length_cons]; omega
    have total := length
    simp only [rpcText, List.length_append, ascii_length] at total
    have prefixLength : "ckgit-rpc 1 ".length = 12 := rfl
    simp only [List.length_cons]
    omega
  by_cases few : arguments.length ≤ kMaximumControlArguments
  · have tokens := tokensFrom_bare words (by decide : 0 < 1) enough (by
      simp only [List.length_cons, kMaximumCommandTokens]
      omega)
    rw [parseSshOriginalCommand, start, tokens]
    simp only [Except.map, List.map_cons, bind, Except.bind]
    exact rpcCommand_bare operation arguments command
  · have refused : ¬ isValidControlOperation operation arguments := fun valid =>
      few (isValidControlOperation_few valid)
    have none : ∀ tokens, tokensFrom fuel 1 (spaced (ascii "1" :: operation :: arguments))
        ≠ .ok tokens := fun tokens =>
      tokensFrom_many words (by decide) (by
        simp only [List.length_cons, kMaximumCommandTokens]
        omega) (by decide)
    constructor
    · intro accepted
      simp only [parseSshOriginalCommand, start, bind_ok, map_ok] at accepted
      obtain ⟨_, ⟨tokens, found, _⟩, _⟩ := accepted
      exact absurd found (none tokens)
    · rintro ⟨valid, _⟩
      exact absurd valid refused

def argumentBound (kind : ArgumentKind) : Nat :=
  match kind with
  | .project => 64
  | .branch => 255
  | .checkoutPath => 512
  | .ciRunId => 64
  | .stepIndex => 4
  | .byteOffset => 20

/-- A byte a request line may hold inside a word. -/
def isWordByte (byte : UInt8) : Bool := 0x20 < byte

theorem isCanonicalDecimal_word {value : Bytes} {digits : Nat} (h : isCanonicalDecimal value digits) :
    value ≠ [] ∧ value.length ≤ digits ∧ value.all isDigit := by
  simp only [isCanonicalDecimal, Bool.and_eq_true, Bool.not_eq_true', decide_eq_true_eq] at h
  refine ⟨?_, h.1.1.2, h.2⟩
  rintro rfl
  simp at h

theorem all_mono {p q : UInt8 → Bool} {text : Bytes} (stronger : ∀ byte, p byte → q byte)
    (h : text.all p) : text.all q :=
  List.all_eq_true.mpr fun byte member => stronger byte (List.all_eq_true.mp h byte member)

theorem isValidBranchName_word {branch : Bytes} (h : isValidBranchName branch) :
    branch ≠ [] ∧ branch.length ≤ 255 ∧ branch.all isWordByte := by
  unfold isValidBranchName at h
  split at h
  · cases h
  rename_i shape
  split at h
  · cases h
  rename_i bytes
  simp only [Bool.or_eq_true, decide_eq_true_eq, not_or, not_lt] at shape
  refine ⟨by simpa using shape.1.1.1.1.1.1.1.1, shape.1.1.1.1.1.1.1.2, ?_⟩
  rw [List.all_eq_true]
  intro byte member
  by_contra control
  apply bytes
  rw [List.any_eq_true]
  refine ⟨byte, member, ?_⟩
  have low : byte ≤ 0x20 := by
    simp only [isWordByte, decide_eq_true_eq, UInt8.not_lt] at control
    exact control
  simp [low]

theorem hexNibble_word {byte nibble : UInt8} (h : hexNibble byte = some nibble) :
    isWordByte byte := by
  have all : ∀ n : Fin 256, (hexNibble (UInt8.ofFin n)).isSome → isWordByte (UInt8.ofFin n) := by
    decide +kernel
  exact all byte.toFin (by rw [show UInt8.ofFin byte.toFin = byte from rfl, h]; rfl)

theorem hexPairs_word {hex bytes : Bytes} (h : hexPairs hex = some bytes) : hex.all isWordByte := by
  fun_induction hexPairs hex generalizing bytes with
  | case1 => rfl
  | case2 => cases h
  | case3 high low rest ih =>
    simp only [Option.bind_eq_bind, Option.bind_eq_some_iff, pure, Option.some.injEq] at h
    obtain ⟨_, first, _, second, decoded, later, rfl⟩ := h
    simp only [List.all_cons, hexNibble_word first, hexNibble_word second, ih later, Bool.and_self]

/-- The bytes of a valid argument: none is a space or a control byte, and only a branch has
bytes beyond ASCII. -/
theorem isValidArgument_word {kind : ArgumentKind} {value : Bytes} (h : isValidArgument kind value) :
    value ≠ [] ∧ value.length ≤ argumentBound kind ∧ value.all isWordByte := by
  have name : ∀ byte, isNameCharacter byte → isWordByte byte := by
    have all : ∀ n : Fin 256, isNameCharacter (UInt8.ofFin n) → isWordByte (UInt8.ofFin n) := by
      decide +kernel
    exact fun byte => all byte.toFin
  have id : ∀ byte, isIdCharacter byte → isWordByte byte := by
    have all : ∀ n : Fin 256, isIdCharacter (UInt8.ofFin n) → isWordByte (UInt8.ofFin n) := by
      decide +kernel
    exact fun byte => all byte.toFin
  have digit : ∀ byte, isDigit byte → isWordByte byte := by
    have all : ∀ n : Fin 256, isDigit (UInt8.ofFin n) → isWordByte (UInt8.ofFin n) := by
      decide +kernel
    exact fun byte => all byte.toFin
  cases kind with
  | project =>
    refine ⟨?_, isValidProjectName_length h, all_mono name (isValidProjectName_characters h)⟩
    rintro rfl
    cases h
  | branch => exact isValidBranchName_word h
  | checkoutPath =>
    simp only [isValidArgument, isValidCheckoutPathToken, decodeCheckoutPath] at h
    split at h
    · cases h
    · rename_i shape
      simp only [not_or, not_lt] at shape
      obtain ⟨filled, short, _⟩ := shape
      refine ⟨by simpa using filled, short, ?_⟩
      cases decoded : hexPairs value with
      | none => simp [decoded] at h
      | some bytes => exact hexPairs_word decoded
  | ciRunId =>
    refine ⟨isValidCiId_nonempty h, isValidCiId_length h, ?_⟩
    simp only [isValidArgument, isValidCiId, Bool.and_eq_true] at h
    exact all_mono id h.2
  | stepIndex =>
    simp only [isValidArgument, Bool.and_eq_true] at h
    obtain ⟨filled, short, digits⟩ := isCanonicalDecimal_word h.1
    exact ⟨filled, short, all_mono digit digits⟩
  | byteOffset =>
    simp only [isValidArgument, Bool.and_eq_true] at h
    obtain ⟨filled, short, digits⟩ := isCanonicalDecimal_word h.1
    exact ⟨filled, short, all_mono digit digits⟩

theorem arguments_bound {kinds : List ArgumentKind} {arguments : List Bytes}
    (valid : (kinds.zip arguments).all fun (kind, value) => isValidArgument kind value)
    (arity : arguments.length = kinds.length) :
    (spaced arguments).length ≤ (kinds.map fun kind => argumentBound kind + 1).sum
      ∧ ∀ argument ∈ arguments, argument ≠ [] ∧ argument.all isWordByte := by
  induction kinds generalizing arguments with
  | nil =>
    cases arguments with
    | nil => simp [spaced]
    | cons => simp at arity
  | cons kind kinds ih =>
    cases arguments with
    | nil => simp at arity
    | cons argument arguments =>
      simp only [List.zip_cons_cons, List.all_cons, Bool.and_eq_true] at valid
      obtain ⟨filled, short, bytes⟩ := isValidArgument_word valid.1
      obtain ⟨total, words⟩ := ih valid.2 (by simpa using arity)
      constructor
      · simp only [spaced_cons, List.length_append, List.length_cons, List.map_cons, List.sum_cons]
        omega
      · intro other member
        rcases List.mem_cons.mp member with rfl | later
        · exact ⟨filled, bytes⟩
        · exact words other later

/-- A valid operation: its words, and room for the longest client id. -/
theorem isValidControlOperation_words {operation : Bytes} {arguments : List Bytes}
    (h : isValidControlOperation operation arguments) :
    (∀ word ∈ operation :: arguments, word ≠ [] ∧ word.all isWordByte)
      ∧ (∀ byte ∈ operation, byte ≤ 0x7e)
      ∧ operation.length + (spaced arguments).length ≤ 657 := by
  have table : ∀ entry ∈ kOperations, entry.name ≠ [] ∧ entry.name.all isWordByte
      ∧ (∀ byte ∈ entry.name, byte ≤ 0x7e)
      ∧ entry.name.length + (entry.arguments.map fun kind => argumentBound kind + 1).sum ≤ 657 := by
    decide +kernel
  unfold isValidControlOperation at h
  split at h
  · cases h
  · rename_i grammar found
    simp only [Bool.and_eq_true, beq_iff_eq] at h
    obtain ⟨arity, valid⟩ := h
    have named := List.find?_some found
    rw [beq_iff_eq] at named
    obtain ⟨filled, bytes, printable, size⟩ := table grammar (List.mem_of_find?_eq_some found)
    obtain ⟨total, words⟩ := arguments_bound valid arity
    rw [named] at filled bytes printable size
    refine ⟨?_, printable, by omega⟩
    intro word member
    rcases List.mem_cons.mp member with rfl | later
    · exact ⟨filled, bytes⟩
    · exact words word later

theorem isWordByte_avoids {word : Bytes} (h : word.all isWordByte) : space ∉ word ∧ newline ∉ word :=
  ⟨not_mem_of_all h (by decide), not_mem_of_all h (by decide)⟩

theorem isValidClientId_words {client_id : Bytes} (h : isValidClientId client_id) :
    client_id ≠ [] ∧ client_id.all isWordByte ∧ ∀ byte ∈ client_id, byte ≤ 0x7e := by
  have word : ∀ n : Fin 256, (isAlnum (UInt8.ofFin n) || UInt8.ofFin n == '-'.toUInt8
      || UInt8.ofFin n == '_'.toUInt8) → isWordByte (UInt8.ofFin n) ∧ UInt8.ofFin n ≤ 0x7e := by
    decide +kernel
  simp only [isValidClientId, Bool.and_eq_true] at h
  refine ⟨?_, all_mono (fun byte => fun ok => (word byte.toFin ok).1) h.2, ?_⟩
  · rintro rfl
    simp at h
  · intro byte member
    exact (word byte.toFin (List.all_eq_true.mp h.2 byte member)).2

/-- The content of a request line. -/
def requestContent (client_id operation : Bytes) (arguments : List Bytes) : Bytes :=
  kPrefix ++ (client_id ++ spaced (operation :: arguments))

theorem requestLine_content (client_id operation : Bytes) (arguments : List Bytes) :
    requestLine client_id operation arguments
      = requestContent client_id operation arguments ++ [newline] := by
  simp [requestLine, requestContent, spaced]

/-- The daemon reads the words of the line. -/
theorem requestTokens_content {client_id operation : Bytes} {arguments : List Bytes}
    (client : isValidClientId client_id) (valid : isValidControlOperation operation arguments) :
    requestTokens ((requestContent client_id operation arguments).drop kPrefix.length)
      = some (client_id :: operation :: arguments) := by
  obtain ⟨words, _, _⟩ := isValidControlOperation_words valid
  obtain ⟨filled, bytes, _⟩ := isValidClientId_words client
  have all : ∀ word ∈ client_id :: operation :: arguments, word ≠ [] ∧ word.all isWordByte := by
    intro word member
    rcases List.mem_cons.mp member with rfl | later
    · exact ⟨filled, bytes⟩
    · exact words word later
  have split := splitOn_spaced fun word member => (isWordByte_avoids (all word member).2).1
  have few := isValidControlOperation_few valid
  have shape : ¬ ((client_id :: operation :: arguments).contains []
      ∨ (client_id :: operation :: arguments).length > 2 + kMaximumControlArguments) := by
    rintro (empty | many)
    · rw [List.contains_iff_mem] at empty
      exact (all [] empty).1 rfl
    · simp only [List.length_cons] at many
      omega
  rw [requestContent, List.drop_left, requestTokens, split]
  exact if_neg shape

/-- Every word of a valid request is made of word bytes. -/
theorem requestContent_member {client_id operation : Bytes} {arguments : List Bytes} {byte : UInt8}
    (client : isValidClientId client_id) (valid : isValidControlOperation operation arguments)
    (h : byte ∈ requestContent client_id operation arguments) :
    (0x20 ≤ byte ∧ byte ≤ 0x7e) ∨ ∃ argument ∈ arguments, byte ∈ argument ∧ 0x20 < byte := by
  obtain ⟨words, operationAscii, _⟩ := isValidControlOperation_words valid
  obtain ⟨_, clientBytes, clientAscii⟩ := isValidClientId_words client
  have start : ∀ byte ∈ kPrefix, 0x20 ≤ byte ∧ byte ≤ 0x7e := by decide +kernel
  have word : ∀ {text : Bytes}, text.all isWordByte → byte ∈ text → 0x20 < byte :=
    fun all member => of_decide_eq_true (List.all_eq_true.mp all byte member)
  simp only [requestContent, spaced, List.mem_append, List.mem_flatMap, List.mem_cons] at h
  rcases h with inPrefix | inClient | ⟨text, which, rfl | inText⟩
  · exact .inl (start byte inPrefix)
  · exact .inl ⟨UInt8.le_of_lt (word clientBytes inClient), clientAscii byte inClient⟩
  · exact .inl (by decide)
  · have filled := word (words text (List.mem_cons.mpr which)).2 inText
    rcases which with rfl | argument
    · exact .inl ⟨UInt8.le_of_lt filled, operationAscii byte inText⟩
    · exact .inr ⟨text, argument, inText, filled⟩

theorem requestContent_newline {client_id operation : Bytes} {arguments : List Bytes}
    (client : isValidClientId client_id) (valid : isValidControlOperation operation arguments) :
    newline ∉ requestContent client_id operation arguments := by
  intro member
  rcases requestContent_member client valid member with ⟨low, _⟩ | ⟨_, _, _, low⟩
  · exact absurd low (by decide)
  · exact absurd low (by decide)

/-- The line is printable exactly when the arguments are. -/
theorem requestContent_ascii {client_id operation : Bytes} {arguments : List Bytes}
    (client : isValidClientId client_id) (valid : isValidControlOperation operation arguments) :
    ¬ (requestContent client_id operation arguments).any
        (fun character => character < 0x20 || 0x7e < character)
      ↔ ∀ argument ∈ arguments, ∀ byte ∈ argument, byte ≤ 0x7e := by
  rw [List.any_eq_true]
  constructor
  · intro printable argument which byte member
    by_contra high
    apply printable
    refine ⟨byte, ?_, ?_⟩
    · simp only [requestContent, spaced, List.mem_append, List.mem_flatMap, List.mem_cons]
      exact .inr (.inr ⟨argument, .inr which, .inr member⟩)
    · have above : 0x7e < byte := UInt8.not_le.mp high
      simp [above]
  · rintro plain ⟨byte, member, unprintable⟩
    have bounds : 0x20 ≤ byte ∧ byte ≤ 0x7e := by
      rcases requestContent_member client valid member with bounds | ⟨argument, which, inside, low⟩
      · exact bounds
      · exact ⟨UInt8.le_of_lt low, plain argument which byte inside⟩
    simp only [Bool.or_eq_true, decide_eq_true_eq] at unprintable
    rcases unprintable with low | high
    · exact absurd bounds.1 (UInt8.not_le.mpr low)
    · exact absurd bounds.2 (UInt8.not_le.mpr high)

/-- The daemon reads a valid request's line back exactly when its arguments are ASCII. -/
theorem parseControlRequest_line {client_id operation : Bytes} {arguments : List Bytes}
    (client : isValidClientId client_id) (valid : isValidControlOperation operation arguments) :
    (requestLine client_id operation arguments).length ≤ kMaximumControlRequestBytes
      ∧ (parseControlRequest (requestLine client_id operation arguments)
          = some { client_id, operation, arguments }
        ↔ ∀ argument ∈ arguments, ∀ byte ∈ argument, byte ≤ 0x7e) := by
  obtain ⟨words, operationAscii, size⟩ := isValidControlOperation_words valid
  obtain ⟨_, clientBytes, clientAscii⟩ := isValidClientId_words client
  have clientSize := isValidClientId_length client
  have prefixSize : kPrefix.length = 16 := rfl
  have length : (requestLine client_id operation arguments).length ≤ kMaximumControlRequestBytes := by
    simp only [requestLine_content, requestContent, spaced_cons, List.length_append,
      List.length_cons, List.length_nil, prefixSize, kMaximumControlRequestBytes]
    omega
  refine ⟨length, ?_⟩
  have content : (requestLine client_id operation arguments).dropLast
      = requestContent client_id operation arguments := by
    rw [requestLine_content, List.dropLast_concat]
  have ends : (requestLine client_id operation arguments).getLast? = some newline := by
    simp [requestLine_content]
  have filled : (requestLine client_id operation arguments).isEmpty = false := by
    simp [requestLine_content]
  have starts : kPrefix.isPrefixOf (requestContent client_id operation arguments) := by
    simp [requestContent, List.isPrefixOf_iff_prefix]
  have tokens := requestTokens_content client valid
  have lines : ¬ (requestContent client_id operation arguments).contains newline := by
    rw [List.contains_iff_mem]
    exact requestContent_newline client valid
  have fits : ¬ (requestLine client_id operation arguments).length > kMaximumControlRequestBytes := by
    omega
  have bytes := requestContent_ascii client valid
  unfold parseControlRequest
  simp only [content, ends, filled, Bool.false_eq_true, fits, ne_eq, not_true_eq_false, lines,
    starts, false_or, or_false, tokens, client, valid, and_self, if_true]
  by_cases printable : (requestContent client_id operation arguments).any
      fun character => character < 0x20 || 0x7e < character
  · rw [if_pos printable]
    constructor
    · intro refused
      cases refused
    · intro plain
      exact absurd printable (bytes.mpr plain)
  · rw [if_neg printable]
    exact iff_of_true rfl (bytes.mp printable)

/-- The boundaries accept the same operation and read it the same way. -/
def BoundariesAgree (client_id operation : Bytes) (arguments : List Bytes) : Prop :=
  ((∀ word ∈ operation :: arguments, BareToken word) → (rpcText operation arguments).length ≤ 1024 →
    ∀ command, parseSshOriginalCommand (rpcText operation arguments) = .ok command
      ↔ isValidControlOperation operation arguments ∧ command = .rpc operation arguments)
  ∧ (isValidControlOperation operation arguments →
    (requestLine client_id operation arguments).length ≤ kMaximumControlRequestBytes
      ∧ forwardedLine client_id operation arguments = .ok (requestLine client_id operation arguments)
      ∧ parseControlRequest (requestLine client_id operation arguments)
        = some { client_id, operation, arguments })

/-- The boundaries agree exactly on the requests whose arguments are ASCII. -/
theorem boundaries_agree_iff {client_id operation : Bytes} {arguments : List Bytes}
    (client : isValidClientId client_id) :
    BoundariesAgree client_id operation arguments
      ↔ (isValidControlOperation operation arguments →
        ∀ argument ∈ arguments, ∀ byte ∈ argument, byte ≤ 0x7e) := by
  constructor
  · intro agree valid
    obtain ⟨_, line⟩ := parseControlRequest_line client valid
    obtain ⟨_, _, read⟩ := agree.2 valid
    exact line.mp read
  · intro plain
    refine ⟨fun bare fits command => parseSshOriginalCommand_bare bare fits command, fun valid => ?_⟩
    obtain ⟨length, line⟩ := parseControlRequest_line client valid
    refine ⟨length, ?_, line.mpr (plain valid)⟩
    have accepted : ¬ ¬ (isValidClientId client_id ∧ isValidControlOperation operation arguments) :=
      not_not.mpr ⟨client, valid⟩
    simp only [forwardedLine, bind_ok, pure_ok]
    exact ⟨(), rejectIf_ok.mpr accepted, (), rejectIf_ok.mpr (by omega), trivial⟩

theorem boundaries_agree_create :
    isValidClientId (ascii "alice")
      ∧ (BoundariesAgree (ascii "alice") (ascii "create") [ascii "p", ascii "main"]
        ↔ (isValidControlOperation (ascii "create") [ascii "p", ascii "main"] →
          ∀ argument ∈ [ascii "p", ascii "main"], ∀ byte ∈ argument, byte ≤ 0x7e)) :=
  ⟨by decide +kernel, boundaries_agree_iff (by decide +kernel)⟩

/-- The branch `é` passes the table and is refused by the daemon. -/
theorem not_boundaries_agree_accent :
    isValidClientId (ascii "alice")
      ∧ isValidControlOperation (ascii "create") [ascii "p", [0xc3, 0xa9]]
      ∧ forwardedLine (ascii "alice") (ascii "create") [ascii "p", [0xc3, 0xa9]]
        = .ok (requestLine (ascii "alice") (ascii "create") [ascii "p", [0xc3, 0xa9]])
      ∧ parseControlRequest (requestLine (ascii "alice") (ascii "create") [ascii "p", [0xc3, 0xa9]])
        = none
      ∧ ¬ BoundariesAgree (ascii "alice") (ascii "create") [ascii "p", [0xc3, 0xa9]] := by
  have valid : isValidControlOperation (ascii "create") [ascii "p", [0xc3, 0xa9]] := by
    decide +kernel
  have refused : parseControlRequest
      (requestLine (ascii "alice") (ascii "create") [ascii "p", [0xc3, 0xa9]]) = none := by
    decide +kernel
  refine ⟨by decide +kernel, valid, by rfl, refused, fun agree => ?_⟩
  obtain ⟨_, _, read⟩ := agree.2 valid
  rw [refused] at read
  cases read

end CkGit.Control
