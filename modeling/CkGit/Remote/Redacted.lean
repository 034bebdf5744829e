import Mathlib.Data.List.TakeWhile
import CkGit.Remote.Model

/-!
# What a displayed URL shows of a password

The text shown for a URL depends on its password only from the first at sign of
the user information on, and a URL without a password is shown as it is.
-/
namespace CkGit.Remote
open CkGit.Base CkGit.Ci

/-- What stands around the password: the user information extends to the last at sign
of the authority, and the password starts at its first colon. -/
structure Surroundings where
  scheme : Bytes
  user : Bytes
  after : Bytes
  first_scheme : findPiece (ascii "://") (scheme ++ ascii "://") = some scheme.length
  user_plain : ∀ byte ∈ user, byte ≠ colon ∧ endsAuthority byte = false
  last_sign : sign ∉ after.takeWhile fun byte => !endsAuthority byte

/-- No slash, question mark or number sign. -/
def InAuthority (password : Bytes) : Prop := ∀ byte ∈ password, endsAuthority byte = false

def Surroundings.url (around : Surroundings) (password : Bytes) : Bytes :=
  around.scheme ++ ascii "://" ++ (around.user ++ colon :: password ++ sign :: around.after)

/-- What the text shown has of the password: all of it where the user has an at sign, else what
follows the first at sign in it. -/
def Surroundings.revealed (around : Surroundings) (password : Bytes) : Bytes :=
  if sign ∈ around.user then password else password.dropWhile (· != sign)

/-- The redaction of what follows the scheme. -/
def redactAfter (text : Bytes) : Option Bytes :=
  match findFrom (· == sign) text 0, findFrom (· == colon) text 0 with
  | some at_, some colon_at =>
    if (findFrom endsAuthority text 0).any (· < at_) ∨ at_ < colon_at then none
    else some (text.take (colon_at + 1) ++ ascii "***" ++ text.drop at_)
  | _, _ => none

theorem redact_eq {front : Bytes} (found : findPiece (ascii "://") (front ++ text) = some (front.length - 3))
    (long : 3 ≤ front.length) :
    redactRemoteUrl (front ++ text) = front ++ (redactAfter text).getD text := by
  have start : front.length - 3 + 3 = front.length := Nat.sub_add_cancel long
  unfold redactRemoteUrl redactAfter
  simp only [found, start, findFrom_append]
  cases signs : findFrom (· == sign) text 0 with
  | none => simp
  | some at_ =>
    cases colons : findFrom (· == colon) text 0 with
    | none => simp
    | some colon_at =>
      have early : (Option.map (front.length + ·) (findFrom endsAuthority text 0)).any (· < front.length + at_)
          = (findFrom endsAuthority text 0).any (· < at_) := by
        cases findFrom endsAuthority text 0 <;> simp
      simp only [Option.map_some, early, Nat.add_lt_add_iff_left]
      by_cases late : (findFrom endsAuthority text 0).any (· < at_) = true
      · simp [late]
      · by_cases order : at_ < colon_at
        · simp [late, order]
        · simp only [late, order, Bool.false_eq_true, or_self, if_false, Option.getD_some]
          rw [Nat.add_assoc, List.take_length_add_append, List.drop_length_add_append]
          simp only [List.append_assoc]

/-- The redaction changes a text only where user information with a colon stands before its first at sign. -/
theorem redactAfter_some {shown : Bytes} (h : redactAfter text = some shown) :
    ∃ user middle after, text = user ++ colon :: middle ++ sign :: after
      ∧ (∀ byte ∈ user, byte ≠ colon ∧ byte ≠ sign ∧ endsAuthority byte = false)
      ∧ (∀ byte ∈ middle, byte ≠ sign ∧ endsAuthority byte = false)
      ∧ shown = user ++ colon :: ascii "***" ++ sign :: after := by
  unfold redactAfter at h
  split at h
  case h_2 => cases h
  next at_ colon_at signs colons =>
  split at h
  · cases h
  next open_ =>
  rw [not_or, Nat.not_lt] at open_
  obtain ⟨before, byte, after, split, plain, hit, rfl⟩ := findFrom_zero.mp signs
  obtain ⟨user, other, later, split', no_colon, hit', rfl⟩ := findFrom_zero.mp colons
  obtain rfl : byte = sign := beq_iff_eq.mp hit
  obtain rfl : other = colon := beq_iff_eq.mp hit'
  have authority : ∀ byte ∈ before, endsAuthority byte = false := by
    cases ends : findFrom endsAuthority text 0 with
    | none => exact fun byte member => findFrom_none.mp ends byte (split ▸ List.mem_append_left _ member)
    | some k =>
      obtain ⟨free, stop, rest, whole, inside, -, rfl⟩ := findFrom_zero.mp ends
      have short : before.length ≤ free.length := by
        rw [ends] at open_
        simpa using open_.1
      have part := List.prefix_of_prefix_length_le (split ▸ List.prefix_append before _)
        (whole ▸ List.prefix_append free _) short
      exact fun byte member => inside byte (part.subset member)
  obtain ⟨middle, rfl, rfl⟩ : ∃ middle, before = user ++ colon :: middle ∧ later = middle ++ sign :: after := by
    obtain ⟨rest, rfl, both⟩ | ⟨rest, rfl, both⟩ := List.append_eq_append_iff.mp (split.symm.trans split')
    · cases rest with
      | nil => exact absurd (List.cons.inj both).1 (by decide)
      | cons first rest =>
        rw [List.length_append, List.length_cons] at open_
        omega
    · cases rest with
      | nil => exact absurd (List.cons.inj both).1 (by decide)
      | cons first rest =>
        obtain ⟨rfl, rfl⟩ := List.cons.inj both
        exact ⟨rest, rfl, rfl⟩
  refine ⟨user, middle, after, split, fun byte member => ⟨?_, ?_, ?_⟩, fun byte member => ⟨?_, ?_⟩, ?_⟩
  · simpa using no_colon byte member
  · simpa using plain byte (List.mem_append_left _ member)
  · exact authority byte (List.mem_append_left _ member)
  · simpa using plain byte (List.mem_append_right _ (.tail _ member))
  · exact authority byte (List.mem_append_right _ (.tail _ member))
  · obtain rfl := Option.some.inj h
    have front : text.take (user.length + 1) = user ++ [colon] := by
      have pieces : text = (user ++ [colon]) ++ (middle ++ sign :: after) := by rw [split', List.append_assoc]; rfl
      rw [pieces, show user.length + 1 = (user ++ [colon]).length by simp, List.take_left]
    rw [front, split, List.drop_left]
    simp

/-- User information with a colon, up to its first at sign. -/
theorem redactAfter_of_split {user middle after : Bytes}
    (plain : ∀ byte ∈ user, byte ≠ colon ∧ byte ≠ sign ∧ endsAuthority byte = false)
    (inside : ∀ byte ∈ middle, byte ≠ sign ∧ endsAuthority byte = false) :
    redactAfter (user ++ colon :: middle ++ sign :: after) = some (user ++ colon :: ascii "***" ++ sign :: after) := by
  have colons : findFrom (· == colon) (user ++ colon :: middle ++ sign :: after) 0 = some user.length :=
    findFrom_zero.mpr ⟨user, colon, middle ++ sign :: after, by simp, fun byte member => by
      simpa using (plain byte member).1, rfl, rfl⟩
  have unsigned : ∀ byte ∈ user ++ colon :: middle, byte ≠ sign ∧ endsAuthority byte = false := by
    intro byte member
    obtain before | _ | ⟨_, later⟩ := List.mem_append.mp member
    · exact (plain byte before).2
    · decide
    · exact inside byte later
  have signs : findFrom (· == sign) (user ++ colon :: middle ++ sign :: after) 0
      = some (user ++ colon :: middle).length :=
    findFrom_zero.mpr ⟨_, sign, after, rfl, fun byte member => by simpa using (unsigned byte member).1, rfl, rfl⟩
  have open_ : ¬((findFrom endsAuthority (user ++ colon :: middle ++ sign :: after) 0).any
      (· < (user ++ colon :: middle).length) = true ∨ (user ++ colon :: middle).length < user.length) := by
    rintro (early | order)
    · cases found : findFrom endsAuthority (user ++ colon :: middle ++ sign :: after) 0 with
      | none =>
        rw [found] at early
        cases early
      | some k =>
        have late := findFrom_le found rfl fun byte member => (unsigned byte member).2
        rw [found] at early
        simp only [Option.any_some, decide_eq_true_eq] at early
        omega
    · rw [List.length_append] at order
      omega
  have front : (user ++ colon :: middle ++ sign :: after).take (user.length + 1) = user ++ [colon] := by
    have pieces : user ++ colon :: middle ++ sign :: after = (user ++ [colon]) ++ (middle ++ sign :: after) := by simp
    rw [pieces, show user.length + 1 = (user ++ [colon]).length by simp, List.take_left]
  rw [redactAfter, signs, colons]
  simp only [if_neg open_]
  rw [front, List.drop_left]
  simp

/-- The redaction of user information with a colon and of what follows it. -/
theorem redactAfter_eq {user password after : Bytes} (plain : ∀ byte ∈ user, byte ≠ colon ∧ endsAuthority byte = false)
    (inside : InAuthority password) :
    redactAfter (user ++ colon :: password ++ sign :: after) =
      if sign ∈ user then none
      else some (user ++ colon :: ascii "***" ++ password.dropWhile (· != sign) ++ sign :: after) := by
  split
  · next within =>
    obtain ⟨first, last, split, free⟩ := List.eq_append_cons_of_mem within
    have signs : findFrom (· == sign) (user ++ colon :: password ++ sign :: after) 0 = some first.length :=
      findFrom_zero.mpr ⟨first, sign, last ++ colon :: password ++ sign :: after, by simp [split], fun byte member => by
        simpa using fun same : byte = sign => free (same ▸ member), rfl, rfl⟩
    have colons : findFrom (· == colon) (user ++ colon :: password ++ sign :: after) 0 = some user.length :=
      findFrom_zero.mpr ⟨user, colon, password ++ sign :: after, by simp, fun byte member => by
        simpa using (plain byte member).1, rfl, rfl⟩
    have order : first.length < user.length := by
      rw [split, List.length_append, List.length_cons]
      omega
    rw [redactAfter, signs, colons]
    simp only [if_pos (Or.inr order)]
  · next without =>
    obtain ⟨rest, shape⟩ : ∃ rest, password.dropWhile (· != sign) ++ sign :: after = sign :: rest := by
      cases tail : password.dropWhile (· != sign) with
      | nil => exact ⟨after, rfl⟩
      | cons byte later =>
        have stopped := List.head_dropWhile_not (· != sign) (l := password) (by simp [tail])
        have same : byte = sign := by simpa [tail] using stopped
        exact ⟨later ++ sign :: after, by rw [same]; rfl⟩
    have whole := List.takeWhile_append_dropWhile (p := (· != sign)) (l := password)
    have text_eq : user ++ colon :: password ++ sign :: after
        = user ++ colon :: password.takeWhile (· != sign) ++ sign :: rest := by
      rw [List.append_assoc, List.append_assoc, List.cons_append, List.cons_append, ← shape,
        ← List.append_assoc _ _ (sign :: after), whole]
    have shown := @redactAfter_of_split user (password.takeWhile (· != sign)) rest
      (fun byte member => ⟨(plain byte member).1, fun same => without (same ▸ member), (plain byte member).2⟩)
      (fun byte member => ⟨by simpa using List.mem_takeWhile_imp member, inside byte (List.takeWhile_subset _ member)⟩)
    rw [text_eq, shown, ← shape]
    simp

variable (around : Surroundings)

theorem redact_url {password : Bytes} (inside : InAuthority password) :
    redactRemoteUrl (around.url password) = if sign ∈ around.user then around.url password
      else around.scheme ++ ascii "://"
        ++ (around.user ++ colon :: ascii "***" ++ password.dropWhile (· != sign) ++ sign :: around.after) := by
  have length : (around.scheme ++ ascii "://").length - 3 = around.scheme.length := by
    rw [List.length_append]
    exact Nat.add_sub_cancel _ 3
  have found : findPiece (ascii "://")
        (around.scheme ++ ascii "://" ++ (around.user ++ colon :: password ++ sign :: around.after))
      = some ((around.scheme ++ ascii "://").length - 3) := by
    rw [length]
    exact findPiece_append around.first_scheme _
  rw [Surroundings.url, redact_eq found (by rw [List.length_append]; exact Nat.le_add_left 3 _),
    redactAfter_eq around.user_plain inside]
  split <;> rfl

/-- Two passwords are shown alike exactly when what is revealed of them is the same. -/
theorem redact_same {password other : Bytes} (inside : InAuthority password) (inside' : InAuthority other) :
    redactRemoteUrl (around.url password) = redactRemoteUrl (around.url other)
      ↔ around.revealed password = around.revealed other := by
  rw [redact_url around inside, redact_url around inside', Surroundings.revealed, Surroundings.revealed]
  split
  · simp [Surroundings.url]
  · simp

/-- User information with a colon before the first at sign has a password up to the last one. -/
theorem exists_url {scheme user middle after : Bytes}
    (first : findPiece (ascii "://") (scheme ++ ascii "://") = some scheme.length)
    (plain : ∀ byte ∈ user, byte ≠ colon ∧ byte ≠ sign ∧ endsAuthority byte = false)
    (inside : ∀ byte ∈ middle, byte ≠ sign ∧ endsAuthority byte = false) :
    ∃ around password, InAuthority password
      ∧ scheme ++ ascii "://" ++ (user ++ colon :: middle ++ sign :: after) = Surroundings.url around password := by
  have user_plain : ∀ byte ∈ user, byte ≠ colon ∧ endsAuthority byte = false := fun byte member =>
    ⟨(plain byte member).1, (plain byte member).2.2⟩
  cases split : splitAtLast sign (after.takeWhile fun byte => !endsAuthority byte) with
  | none =>
    exact ⟨⟨scheme, user, after, first, user_plain, splitAtLast_none split⟩, middle,
      fun byte member => (inside byte member).2, rfl⟩
  | some parts =>
    obtain ⟨more, host⟩ := parts
    obtain ⟨shape, free⟩ := splitAtLast_some split
    have authority : ∀ byte ∈ more ++ sign :: host, endsAuthority byte = false := fun byte member => by
      have kept := List.mem_takeWhile_imp (p := fun byte => !endsAuthority byte) (shape ▸ member)
      simpa using kept
    have whole := List.takeWhile_append_dropWhile (p := fun byte => !endsAuthority byte) (l := after)
    have ended : (after.dropWhile fun byte => !endsAuthority byte).takeWhile (fun byte => !endsAuthority byte)
        = [] := by
      cases rest : after.dropWhile fun byte => !endsAuthority byte with
      | nil => rfl
      | cons byte later =>
        have stopped := List.head_dropWhile_not (fun byte => !endsAuthority byte) (l := after) (by simp [rest])
        simp only [rest, List.head_cons] at stopped
        rw [List.takeWhile_cons, stopped]
        rfl
    refine ⟨⟨scheme, user, host ++ after.dropWhile fun byte => !endsAuthority byte, first, user_plain, ?_⟩,
      middle ++ sign :: more, fun byte member => ?_, ?_⟩
    · rw [List.takeWhile_append_of_pos, ended, List.append_nil]
      · exact free
      · exact fun byte member => by simpa using authority byte (by simp [member])
    · obtain before | later := List.mem_append.mp member
      · exact (inside byte before).2
      · obtain _ | ⟨_, later⟩ := later
        · decide
        · exact authority byte (List.mem_append_left _ later)
    · have tail : after = more ++ sign :: host ++ after.dropWhile fun byte => !endsAuthority byte := by
        rw [← shape, whole]
      show scheme ++ ascii "://" ++ (user ++ colon :: middle ++ sign :: after)
        = scheme ++ ascii "://" ++ (user ++ colon :: (middle ++ sign :: more)
          ++ sign :: (host ++ after.dropWhile fun byte => !endsAuthority byte))
      conv_lhs => rw [tail]
      simp

/-- What is shown of a password. -/
theorem only_revealed_part_is_shown (around : Surroundings) (password other text : Bytes) :
    (InAuthority password → InAuthority other →
      (redactRemoteUrl (around.url password) = redactRemoteUrl (around.url other)
        ↔ around.revealed password = around.revealed other))
    ∧ ((¬∃ around password, InAuthority password ∧ text = Surroundings.url around password) →
      redactRemoteUrl text = text) := by
  refine ⟨redact_same around, fun without => ?_⟩
  cases found : findPiece (ascii "://") text with
  | none =>
    unfold redactRemoteUrl
    rw [found]
  | some k =>
    obtain ⟨scheme, rest, rfl, rfl, first⟩ := findPiece_split (by decide) found
    have length : (scheme ++ ascii "://").length - 3 = scheme.length := by
      rw [List.length_append]
      exact Nat.add_sub_cancel _ 3
    rw [redact_eq (length.symm ▸ found) (by rw [List.length_append]; exact Nat.le_add_left 3 _)]
    cases outcome : redactAfter rest with
    | none => rfl
    | some shown =>
      obtain ⟨user, middle, after, rfl, plain, inside, -⟩ := redactAfter_some outcome
      exact absurd (exists_url first plain inside) without

/-- The password of `https://u:...@h/`. -/
def sampleAround : Surroundings where
  scheme := ascii "https"
  user := ascii "u"
  after := ascii "h/"
  first_scheme := by decide +kernel
  user_plain := by decide +kernel
  last_sign := by decide +kernel

/-- Passwords without an at sign are shown alike, and a URL without a password as it is. -/
theorem plain_passwords_hidden :
    redactRemoteUrl (ascii "https://u:one@h/") = redactRemoteUrl (ascii "https://u:another@h/")
      ∧ redactRemoteUrl (ascii "git@h:repo") = ascii "git@h:repo" := by
  have shown := only_revealed_part_is_shown sampleAround (ascii "one") (ascii "another") (ascii "git@h:repo")
  have inside : InAuthority (ascii "one") ∧ InAuthority (ascii "another") := by
    unfold InAuthority
    decide +kernel
  refine ⟨(shown.1 inside.1 inside.2).mpr (by decide +kernel), shown.2 ?_⟩
  rintro ⟨around, password, _, same⟩
  have slashed : slash ∈ around.url password := by
    simp [Surroundings.url, show slash ∈ ascii "://" by decide]
  rw [← same] at slashed
  exact absurd slashed (by decide)

/-- Two passwords with an at sign are shown differently: what follows it stays. -/
theorem password_with_sign_shows :
    ∃ (around : Surroundings) (password other : Bytes), InAuthority password ∧ InAuthority other
      ∧ redactRemoteUrl (around.url password) ≠ redactRemoteUrl (around.url other) := by
  refine ⟨sampleAround, ascii "p@one", ascii "p@two", ?_, ?_, ?_⟩
  · unfold InAuthority
    decide +kernel
  · unfold InAuthority
    decide +kernel
  · show redactRemoteUrl (ascii "https://u:p@one@h/") ≠ redactRemoteUrl (ascii "https://u:p@two@h/")
    decide +kernel

end CkGit.Remote
