import CkGit.Outline.Model

/-!
What the outline's lists say: they are always properly nested, every selected
heading is an entry once and in order, and the list an entry stands in is the
one of the nearest shallower heading exactly when the levels are even.
-/
namespace CkGit.Outline
open CkGit.Base

/-- The open lists with the number of the entry open in each, innermost first. -/
abbrev Trail := List (Int × Nat)

/-- Ends the deeper lists and stands the entry in the list left. -/
def settle (level : Int) (number : Nat) (trail : Trail) : Trail :=
  match trail with
  | [] => []
  | [back] => [(back.1, number)]
  | back :: next :: rest =>
    if level < back.1 then settle level number (next :: rest) else (back.1, number) :: next :: rest

def place (level : Int) (number : Nat) (trail : Trail) : Trail :=
  match trail with
  | [] => [(level, number)]
  | back :: rest =>
    if level > back.1 then (level, number) :: back :: rest else settle level number (back :: rest)

def parentIn (trail : Trail) : Option Nat := (trail.drop 1).head?.map (·.2)

/-- The open entries after the levels, newest first. -/
def trailAfter (earlier : List Int) : Trail :=
  match earlier with
  | [] => []
  | level :: before => place level before.length (trailAfter before)

/-- The parents that the lists give the levels, newest first. -/
def writtenParents (earlier : List Int) : List (Option Nat) :=
  match earlier with
  | [] => []
  | level :: before => writtenParents before ++ [parentIn (trailAfter (level :: before))]

/-- The open entries are the chain of nearest smaller levels; only the outermost
list may have a level of its own, the first heading's. -/
inductive Matches (first : Int) : Trail → List (Int × Nat) → Prop
  | root {level : Int} {number : Nat} (least : level ≤ first) :
      Matches first [(first, number)] [(level, number)]
  | above {level : Int} {number : Nat} {back link : Int × Nat} {trail links : List (Int × Nat)}
      (rest : Matches first (back :: trail) (link :: links)) (list : back.1 < level)
      (heading : link.1 < level) (later : back.2 < number) :
      Matches first ((level, number) :: back :: trail) ((level, number) :: link :: links)

variable {first level : Int} {number : Nat} {back link : Int × Nat} {trail links : List (Int × Nat)}

theorem Matches.first_le (h : Matches first (back :: trail) links) : first ≤ back.1 := by
  generalize shape : back :: trail = whole at h
  induction h generalizing back trail with
  | root => cases shape; exact le_refl _
  | above _ list _ _ ih =>
    obtain ⟨rfl, rfl⟩ := List.cons.inj shape
    exact (ih rfl).trans list.le

theorem Matches.link_le (h : Matches first (back :: trail) (link :: links)) : link.1 ≤ back.1 := by
  cases h with
  | root least => exact least
  | above => exact le_refl _

theorem Matches.same_number (h : Matches first (back :: trail) (link :: links)) : link.2 = back.2 := by
  cases h <;> rfl

theorem Matches.below_lt (h : Matches first (back :: trail) links) : ∀ next ∈ trail.head?, next.2 < back.2 := by
  cases h with
  | root => simp
  | above _ _ _ later => simpa using later

/-- What a level must be to keep the lists in step with the chain. -/
def Fits (first level : Int) (links : List (Int × Nat)) : Prop :=
  ∀ top rest, links.dropWhile (fun link => level ≤ link.1) = top :: rest →
    (∀ last ∈ (links.takeWhile (fun link => level ≤ link.1)).getLast?, last.1 = level) ∧
    (rest = [] → first < level)

theorem settle_pos (h : level < back.1) (rest : trail ≠ []) :
    settle level number (back :: trail) = settle level number trail := by
  cases trail with
  | nil => exact absurd rfl rest
  | cons next rest => rw [settle, if_pos h]

theorem settle_neg (h : ¬ level < back.1) :
    settle level number (back :: trail) = (back.1, number) :: trail := by
  cases trail with
  | nil => rfl
  | cons next rest => rw [settle, if_neg h]

theorem fits_above {lower : Int × Nat} (h : level ≤ back.1) (more : level ≤ lower.1) :
    Fits first level (back :: lower :: links) ↔ Fits first level (lower :: links) := by
  simp [Fits, h, more]

theorem settle_spec (h : Matches first trail links) (least : ∀ back ∈ trail.head?, level ≤ back.1)
    (fresh : ∀ back ∈ trail.head?, back.2 < number) :
    (parentIn (settle level number trail)
        = (links.dropWhile (fun link => level ≤ link.1)).head?.map (·.2) ↔ Fits first level links) ∧
    (Fits first level links → Matches first (settle level number trail)
      ((level, number) :: links.dropWhile (fun link => level ≤ link.1))) := by
  induction h with
  | @root last old below =>
    have small : level ≤ first := least (first, old) rfl
    by_cases dropped : level ≤ last
    · refine ⟨by simp [settle, parentIn, dropped, Fits], fun _ => ?_⟩
      simpa [settle, dropped] using Matches.root small
    · have differs : ¬ Fits first level [(last, old)] := fun fits =>
        absurd ((fits (last, old) [] (by simp [dropped])).2 rfl) (not_lt.mpr small)
      refine ⟨?_, fun fits => absurd fits differs⟩
      simp [settle, parentIn, dropped, differs]
  | @above top old back link trail links rest list heading later ih =>
    have atMost : level ≤ top := least (top, old) rfl
    have newer : old < number := fresh (top, old) rfl
    rcases atMost.lt_or_eq with below | rfl
    · rw [settle_pos below (List.cons_ne_nil _ _)]
      by_cases small : level ≤ back.1
      · have found := ih (by simpa using small) (by simpa using later.trans newer)
        rw [List.dropWhile_cons_of_pos (by simpa using atMost)]
        by_cases dropped : level ≤ link.1
        · rw [fits_above atMost dropped]
          exact found
        · -- only the outermost list is deeper than its entry
          have single : links = [] ∧ back.1 = first := by
            cases rest with
            | root => exact ⟨rfl, rfl⟩
            | above => exact absurd small dropped
          have stops : (link :: links).dropWhile (fun link => decide (level ≤ link.1)) = link :: links :=
            List.dropWhile_cons_of_neg (by simpa using dropped)
          have low : ¬ first < level := not_lt.mpr (single.2 ▸ small)
          have neither : ¬ Fits first level (link :: links) := fun fits => low ((fits link links stops).2 single.1)
          have nor : ¬ Fits first level ((top, old) :: link :: links) := fun fits =>
            low ((fits link links (by rw [List.dropWhile_cons_of_pos (by simpa using atMost), stops])).2 single.1)
          exact ⟨found.1.trans ⟨fun fits => absurd fits neither, fun fits => absurd fits nor⟩,
            fun fits => absurd fits nor⟩
      · -- the entry goes to a list that its nearest shallower heading is an entry of
        have larger : back.1 < level := not_le.mp small
        have dropped : ¬ level ≤ link.1 := not_le.mpr (rest.link_le.trans_lt larger)
        have unfit : ¬ Fits first level ((top, old) :: link :: links) := fun fits => by
          have equal := (fits link links (by simp [atMost, dropped])).1 (top, old) (by simp [atMost, dropped])
          exact absurd equal below.ne'
        refine ⟨⟨fun same => ?_, fun fits => absurd fits unfit⟩, fun fits => absurd fits unfit⟩
        rw [settle_neg (not_lt.mpr larger.le), List.dropWhile_cons_of_pos (by simpa using atMost),
          List.dropWhile_cons_of_neg (by simpa using dropped)] at same
        have parent : trail.head?.map (·.2) = some back.2 := by
          rw [← rest.same_number]
          simpa [parentIn] using same
        obtain ⟨next, inside, equal⟩ := Option.map_eq_some_iff.mp parent
        exact absurd equal (rest.below_lt next inside).ne
    · have dropped : ¬ level ≤ link.1 := not_le.mpr heading
      rw [settle_neg (show ¬ level < (level, old).1 from lt_irrefl level), List.dropWhile_cons_of_pos (by simp),
        List.dropWhile_cons_of_neg (by simpa using dropped)]
      have fits : Fits first level ((level, old) :: link :: links) := fun top lower shape => by
        refine ⟨by simp [dropped], fun _ => rest.first_le.trans_lt list⟩
      refine ⟨by simp [parentIn, rest.same_number, fits], fun _ => ?_⟩
      exact .above rest list heading (later.trans newer)

theorem place_spec (h : Matches first trail links) (fresh : ∀ back ∈ trail.head?, back.2 < number) :
    (parentIn (place level number trail)
        = (links.dropWhile (fun link => level ≤ link.1)).head?.map (·.2) ↔ Fits first level links) ∧
    (Fits first level links → Matches first (place level number trail)
      ((level, number) :: links.dropWhile (fun link => level ≤ link.1))) := by
  obtain ⟨back, trail, link, links, rfl, rfl⟩ : ∃ back below link rest, trail = back :: below ∧ links = link :: rest := by
    cases h <;> exact ⟨_, _, _, _, rfl, rfl⟩
  by_cases larger : level > back.1
  · have dropped : ¬ level ≤ link.1 := not_le.mpr (h.link_le.trans_lt larger)
    rw [place, if_pos larger, List.dropWhile_cons_of_neg (by simpa using dropped)]
    have fits : Fits first level (link :: links) := fun top lower shape =>
      ⟨by simp [dropped], fun _ => h.first_le.trans_lt larger⟩
    refine ⟨by simp [parentIn, h.same_number, fits], fun _ => ?_⟩
    exact .above h larger (h.link_le.trans_lt larger) (fresh back rfl)
  · rw [place, if_neg larger]
    exact settle_spec h (by simpa using not_lt.mp larger) fresh

variable {earlier : List Int}

theorem levels_old {child : Nat} (inside : child < earlier.reverse.length) :
    (earlier.reverse ++ [level])[child]? = earlier.reverse[child]? := List.getElem?_append_left inside

theorem even_earlier (even : Even (earlier.reverse ++ [level])) : Even earlier.reverse where
  siblings := fun one two => by
    rw [← @levels_old level _ _ (nearests_inside one), ← @levels_old level _ _ (nearests_inside two)]
    exact even.siblings ((nearests_snoc_old (nearests_inside one)).trans one)
      ((nearests_snoc_old (nearests_inside two)).trans two)
  deeper := fun one two own head =>
    even.deeper ((nearests_snoc_old (nearests_inside one)).trans one)
      ((nearests_snoc_old (nearests_inside two)).trans two)
      ((levels_old (nearests_inside one)).trans own)
      ((levels_old (List.getElem?_eq_some_iff.mp head).1).trans head)

/-- The first of the chain that a level is above, and what it passes before. -/
theorem nearest_first {top : Int × Nat} {rest : List (Int × Nat)}
    (shape : (chain earlier).dropWhile (fun link => level ≤ link.1) = top :: rest) :
    nearest level earlier = some top.2 := by
  rw [nearest_eq_chain, shape]
  rfl

theorem chain_split {top : Int × Nat} {rest : List (Int × Nat)}
    (shape : (chain earlier).dropWhile (fun link => level ≤ link.1) = top :: rest) :
    chain earlier = (chain earlier).takeWhile (fun link => level ≤ link.1) ++ top :: rest := by
  rw [← shape, List.takeWhile_append_dropWhile]

/-- The last link that a level passes is an entry of the same list. -/
theorem chain_sibling {top last : Int × Nat} {rest : List (Int × Nat)}
    (shape : (chain earlier).dropWhile (fun link => level ≤ link.1) = top :: rest)
    (ends : last ∈ ((chain earlier).takeWhile (fun link => level ≤ link.1)).getLast?) :
    (nearests earlier.reverse)[last.2]? = some (some top.2) ∧ earlier.reverse[last.2]? = some last.1 := by
  obtain ⟨passed, whole⟩ := List.getLast?_eq_some_iff.mp ends
  have split := chain_split shape
  rw [whole, List.append_assoc, List.singleton_append] at split
  refine ⟨chain_next split, chain_position ?_⟩
  rw [split]
  simp

theorem fits_of_even (start : earlier.reverse[0]? = some first) (even : Even (earlier.reverse ++ [level])) :
    Fits first level (chain earlier) := by
  intro top rest shape
  have newest : (nearests (earlier.reverse ++ [level]))[earlier.reverse.length]? = some (some top.2) := by
    rw [nearests_snoc_last, List.reverse_reverse, nearest_first shape]
  have newLevel : (earlier.reverse ++ [level])[earlier.reverse.length]? = some level := List.getElem?_concat_length
  refine ⟨fun last ends => ?_, fun alone => ?_⟩
  · obtain ⟨sibling, value⟩ := chain_sibling shape ends
    have inside := nearests_inside sibling
    have same := even.siblings ((nearests_snoc_old inside).trans sibling) newest
    rw [levels_old inside, value, newLevel] at same
    exact Option.some.inj same
  · have root := chain_next (chain_split shape)
    rw [alone] at root
    exact even.deeper newest ((nearests_snoc_old (nearests_inside root)).trans root) newLevel
      ((levels_old (List.getElem?_eq_some_iff.mp start).1).trans start)

/-- An entry in the list of the new one has its level. -/
theorem sibling_level (even : Even earlier.reverse) (fits : Fits first level (chain earlier)) {child parent : Nat}
    (above : nearest level earlier = some parent)
    (h : (nearests earlier.reverse)[child]? = some (some parent)) : earlier.reverse[child]? = some level := by
  cases shape : (chain earlier).dropWhile (fun link => decide (level ≤ link.1)) with
  | nil => simp [nearest_eq_chain, shape] at above
  | cons top rest =>
    have same : top.2 = parent := Option.some.inj ((nearest_first shape).symm.trans above)
    cases passed : ((chain earlier).takeWhile (fun link => decide (level ≤ link.1))).getLast? with
    | none =>
      -- the newest heading has no entry below it yet
      have split := chain_split shape
      rw [List.getLast?_eq_none_iff.mp passed, List.nil_append] at split
      cases earlier with
      | nil => cases split
      | cons last before =>
        have newest : top.2 = before.length := (congrArg Prod.snd (List.cons.inj split).1).symm
        have after := nearests_lt h
        have inside := nearests_inside h
        simp only [List.length_reverse, List.length_cons] at inside
        omega
    | some last =>
      obtain ⟨sibling, value⟩ := chain_sibling shape passed
      rw [even.siblings h (same ▸ sibling), value, (fits top rest shape).1 last passed]

theorem even_of_fits (start : earlier.reverse[0]? = some first) (even : Even earlier.reverse)
    (fits : Fits first level (chain earlier)) : Even (earlier.reverse ++ [level]) := by
  have newLevel : (earlier.reverse ++ [level])[earlier.reverse.length]? = some level := List.getElem?_concat_length
  have either {child : Nat} {above : Option Nat}
      (h : (nearests (earlier.reverse ++ [level]))[child]? = some above) :
      ((nearests earlier.reverse)[child]? = some above ∧
        (earlier.reverse ++ [level])[child]? = earlier.reverse[child]?) ∨
      (child = earlier.reverse.length ∧ nearest level earlier = above) := by
    by_cases inside : child < earlier.reverse.length
    · exact .inl ⟨nearests_snoc_old inside ▸ h, levels_old inside⟩
    · have bound := nearests_inside h
      have last : child = earlier.reverse.length := by
        simp only [List.length_append, List.length_singleton] at bound
        omega
      rw [last, nearests_snoc_last, List.reverse_reverse] at h
      exact .inr ⟨last, Option.some.inj h⟩
  constructor
  · intro one two parent first second
    rcases either first with ⟨old, value⟩ | ⟨rfl, above⟩ <;> rcases either second with ⟨old', value'⟩ | ⟨rfl, above'⟩
    · rw [value, value']
      exact even.siblings old old'
    · rw [value, newLevel]
      exact sibling_level even fits above' old
    · rw [value', newLevel]
      exact (sibling_level even fits above old').symm
    · rfl
  · intro child parent own head below root value begins
    have started : head = first := by
      rw [levels_old (List.getElem?_eq_some_iff.mp start).1, start] at begins
      exact (Option.some.inj begins).symm
    rcases either root with ⟨rootOld, -⟩ | ⟨rfl, -⟩
    · rcases either below with ⟨old, same⟩ | ⟨rfl, above⟩
      · exact even.deeper old rootOld (same ▸ value) (started ▸ start)
      · rw [newLevel] at value
        cases shape : (chain earlier).dropWhile (fun link => decide (level ≤ link.1)) with
        | nil => simp [nearest_eq_chain, shape] at above
        | cons top rest =>
          have same : top.2 = parent := Option.some.inj ((nearest_first shape).symm.trans above)
          have next := chain_next (chain_split shape)
          rw [same, rootOld] at next
          have alone : rest = [] := by
            cases rest with
            | nil => rfl
            | cons lower more => simp at next
          rw [started, ← Option.some.inj value]
          exact (fits top rest shape).2 alone
    · have inside := nearests_inside below
      have before := nearests_lt below
      simp only [List.length_append, List.length_singleton] at inside
      omega

/-- The newest open entry is the newest heading. -/
theorem Matches.fresh (h : Matches first trail (chain earlier)) :
    ∀ back ∈ trail.head?, back.2 < earlier.length := by
  cases earlier with
  | nil => cases h
  | cons last before =>
    intro back newest
    obtain ⟨below, rfl⟩ : ∃ below, trail = back :: below := List.head?_eq_some_iff.mp newest
    have same : before.length = back.2 := h.same_number
    simp [← same]

theorem writtenParents_snoc :
    writtenParents (level :: earlier) = nearests (level :: earlier).reverse ↔
      writtenParents earlier = nearests earlier.reverse ∧
      parentIn (trailAfter (level :: earlier)) = nearest level earlier := by
  rw [List.reverse_cons, nearests_snoc, List.reverse_reverse, writtenParents]
  constructor
  · intro same
    obtain ⟨old, new⟩ := List.append_inj' same rfl
    exact ⟨old, List.singleton_inj.mp new⟩
  · rintro ⟨old, new⟩
    rw [old, new]

/-- The lists name the nearest shallower headings exactly when the levels are
even, and then the open entries are their chain. -/
theorem writtenParents_iff (earlier : List Int) :
    (writtenParents earlier = nearests earlier.reverse ↔ Even earlier.reverse) ∧
    (Even earlier.reverse → ∀ first, earlier.reverse[0]? = some first →
      Matches first (trailAfter earlier) (chain earlier)) := by
  induction earlier with
  | nil => exact ⟨⟨fun _ => ⟨by simp [nearests, nearestAfter], by simp [nearests, nearestAfter]⟩, fun _ => rfl⟩, by simp⟩
  | cons level before ih =>
    cases head : before.reverse[0]? with
    | none =>
      obtain rfl : before = [] := by simpa using head
      refine ⟨⟨fun _ => ⟨by simp [nearests, nearestAfter, nearest, List.getElem?_singleton],
        by simp [nearests, nearestAfter, nearest, List.getElem?_singleton]⟩, fun _ => rfl⟩, fun _ first start => ?_⟩
      obtain rfl : level = first := by simpa using start
      exact .root (le_refl _)
    | some first =>
      have split : (level :: before).reverse = before.reverse ++ [level] := List.reverse_cons
      have step (even : Even before.reverse) := @place_spec first level before.length _ _ (ih.2 even first head) (ih.2 even first head).fresh
      constructor
      · rw [writtenParents_snoc, ih.1, split]
        constructor
        · rintro ⟨even, parent⟩
          rw [nearest_eq_chain] at parent
          exact even_of_fits head even ((step even).1.mp parent)
        · intro even
          have old := even_earlier even
          rw [nearest_eq_chain]
          exact ⟨old, (step old).1.mpr (fits_of_even head even)⟩
      · intro even start begins
        rw [split] at even begins
        have same : start = first := by
          rw [levels_old (List.getElem?_eq_some_iff.mp head).1, head] at begins
          exact (Option.some.inj begins).symm
        rw [same]
        exact (step (even_earlier even)).2 (fits_of_even head even)

/-- What was written reads as well nested up to the elements still open. -/
def Reads (out : Bytes) (opened : List Opened) (entries : List Entry) : Prop :=
  out.foldlM readByte { text := [], tag := none, opened := [], entries := [] }
    = some { text := [], tag := none, opened, entries }

variable {out text tag : Bytes} {opened opened' : List Opened} {entries entries' : List Entry}

theorem reads_nil : Reads [] [] [] := rfl

theorem read_text (plain : '<'.toUInt8 ∉ text) (before : Bytes) :
    text.foldlM readByte { text := before, tag := none, opened, entries }
      = some { text := before ++ text, tag := none, opened, entries } := by
  induction text generalizing before with
  | nil => simp
  | cons byte rest ih =>
    have here : byte ≠ '<'.toUInt8 := fun same => plain (same ▸ List.mem_cons_self)
    have there : '<'.toUInt8 ∉ rest := fun inside => plain (List.mem_cons_of_mem _ inside)
    simp [List.foldlM_cons, readByte, here, ih there]

theorem read_tag (plain : '>'.toUInt8 ∉ tag) (before text : Bytes) :
    tag.foldlM readByte { text, tag := some before, opened, entries }
      = some { text, tag := some (before ++ tag), opened, entries } := by
  induction tag generalizing before with
  | nil => simp
  | cons byte rest ih =>
    have here : byte ≠ '>'.toUInt8 := fun same => plain (same ▸ List.mem_cons_self)
    have there : '>'.toUInt8 ∉ rest := fun inside => plain (List.mem_cons_of_mem _ inside)
    simp [List.foldlM_cons, readByte, here, ih there]

/-- One more tag with the text before it. -/
theorem Reads.more (h : Reads out opened entries) (text tag : Bytes) (plain : '<'.toUInt8 ∉ text) (plainTag : '>'.toUInt8 ∉ tag)
    (read : readTag text tag opened entries = some (opened', entries')) :
    Reads (out ++ (text ++ '<'.toUInt8 :: tag ++ ['>'.toUInt8])) opened' entries' := by
  rw [Reads, List.foldlM_append, h]
  have opens : readByte ⟨text, none, opened, entries⟩ '<'.toUInt8 = some ⟨text, some [], opened, entries⟩ := by
    simp [readByte]
  have closes : readByte ⟨text, some tag, opened, entries⟩ '>'.toUInt8
      = some ⟨[], none, opened', entries'⟩ := by
    simp [readByte, read]
  rw [List.append_assoc, List.cons_append, Option.bind_eq_bind, Option.bind_some, List.foldlM_append, read_text plain]
  simp only [List.nil_append, Option.bind_eq_bind, Option.bind_some, List.foldlM_cons, opens, List.foldlM_append,
    read_tag plainTag, closes, List.foldlM_nil, pure]

theorem escapeByte_plain (byte : UInt8) :
    '<'.toUInt8 ∉ escapeByte byte ∧ '>'.toUInt8 ∉ escapeByte byte := by
  unfold escapeByte
  split
  · decide
  split
  · decide
  split
  · decide
  split
  · decide
  split
  · decide
  · simp_all [eq_comm]

theorem escapeHtml_plain (value : Bytes) : '<'.toUInt8 ∉ escapeHtml value ∧ '>'.toUInt8 ∉ escapeHtml value := by
  constructor
  · intro inside
    obtain ⟨byte, -, found⟩ := List.mem_flatMap.mp inside
    exact (escapeByte_plain byte).1 found
  · intro inside
    obtain ⟨byte, -, found⟩ := List.mem_flatMap.mp inside
    exact (escapeByte_plain byte).2 found

theorem linkTag_plain (heading : MarkdownHeading) : '>'.toUInt8 ∉ linkTag heading := by
  have := (escapeHtml_plain (Web.encodePathSegment heading.id)).2
  simp only [linkTag, List.mem_append, not_or]
  exact ⟨⟨by decide, this⟩, by decide⟩

/-- The elements that the open lists and entries are. -/
def openedBy (trail : Trail) : List Opened := trail.flatMap fun back => [.item back.2, .list]

theorem Reads.list (h : Reads out opened entries)
    (place : opened = [] ∧ entries = [] ∨ ∃ top rest, opened = .item top :: rest ∧ top < entries.length) :
    Reads (out ++ ascii "<ul>") (.list :: opened) entries := by
  refine h.more [] (ascii "ul") (by simp) (by decide) ?_
  rcases place with ⟨rfl, rfl⟩ | ⟨top, rest, rfl, old⟩
  · rw [readTag, if_neg (by decide), if_neg (by simp), if_pos rfl]
    rfl
  · rw [readTag, if_neg (by decide), if_neg (by simp), if_pos rfl]
    exact if_pos old

theorem Reads.endItem {top : Nat} (h : Reads out (.item top :: opened) entries) (old : top < entries.length) :
    Reads (out ++ ascii "</li>") opened entries := by
  refine h.more [] (ascii "/li") (by simp) (by decide) ?_
  rw [readTag, if_neg (by decide), if_neg (by simp), if_neg (by decide), if_neg (by decide), if_neg (by decide),
    if_pos rfl]
  exact if_pos old

theorem Reads.endList (h : Reads out (.list :: opened) entries) : Reads (out ++ ascii "</ul>") opened entries := by
  refine h.more [] (ascii "/ul") (by simp) (by decide) ?_
  rw [readTag, if_neg (by decide), if_neg (by simp), if_neg (by decide), if_pos rfl]

theorem Reads.endInner {top : Nat} (h : Reads out (.list :: .item top :: opened) entries) (old : top < entries.length) :
    Reads (out ++ ascii "</ul></li>") opened entries := by
  have both := h.endList.endItem old
  rw [List.append_assoc] at both
  exact both

theorem Reads.item (h : Reads out (.list :: opened) entries) :
    Reads (out ++ ascii "<li>") (.item entries.length :: .list :: opened) entries := by
  refine h.more [] (ascii "li") (by simp) (by decide) ?_
  rw [readTag, if_neg (by decide), if_neg (by simp), if_neg (by decide), if_neg (by decide), if_pos rfl]

theorem Reads.startLink (h : Reads out (.item entries.length :: opened) entries) (heading : MarkdownHeading) :
    Reads (out ++ ('<'.toUInt8 :: linkTag heading ++ ['>'.toUInt8]))
      (.link (linkTag heading) :: .item entries.length :: opened) entries := by
  have starts (other : Bytes) (differs : other.head? ≠ some 'a'.toUInt8) : linkTag heading ≠ other := by
    rintro rfl
    exact differs rfl
  refine h.more [] (linkTag heading) (by simp) (linkTag_plain heading) ?_
  rw [readTag, if_neg (starts _ (by decide)), if_neg (by simp), if_neg (starts _ (by decide)),
    if_neg (starts _ (by decide)), if_neg (starts _ (by decide)), if_neg (starts _ (by decide))]
  exact if_pos rfl

theorem Reads.endLink (h : Reads out (.link tag :: opened) entries) (plain : '<'.toUInt8 ∉ text) :
    Reads (out ++ (text ++ ascii "</a>")) opened (entries ++ [⟨tag, text, around opened⟩]) := by
  have read : readTag text (ascii "/a") (.link tag :: opened) entries
      = some (opened, entries ++ [⟨tag, text, around opened⟩]) := by
    rw [readTag, if_pos rfl]
  have more := h.more text (ascii "/a") plain (by decide) read
  rw [List.append_assoc text] at more
  exact more

/-- The lists written so far: their levels, how they read, and the numbers of
the entries that are open. -/
structure Written (lists : Lists) (trail : Trail) (entries : List Entry) : Prop where
  levels : lists.levels = trail.map (·.1)
  reads : Reads lists.out (openedBy trail) entries
  numbers : ∀ back ∈ trail, back.2 < entries.length
  itemOpen : trail ≠ [] → lists.itemOpen
  empty : trail = [] → entries = []

theorem settle_cons (level : Int) (number : Nat) (back : Int × Nat) (below : Trail) :
    ∃ list rest, settle level number (back :: below) = (list, number) :: rest ∧ rest <:+ below := by
  induction below generalizing back with
  | nil => exact ⟨back.1, [], rfl, List.suffix_rfl⟩
  | cons next rest ih =>
    by_cases deeper : level < back.1
    · rw [settle_pos deeper (List.cons_ne_nil _ _)]
      obtain ⟨list, kept, shape, suffix⟩ := ih next
      exact ⟨list, kept, shape, suffix.trans (List.suffix_cons next rest)⟩
    · exact ⟨back.1, next :: rest, settle_neg deeper, List.suffix_rfl⟩

theorem place_cons (level : Int) (number : Nat) (trail : Trail) :
    ∃ list rest, place level number trail = (list, number) :: rest ∧ rest <:+ trail := by
  cases trail with
  | nil => exact ⟨level, [], rfl, List.suffix_rfl⟩
  | cons back below =>
    by_cases larger : level > back.1
    · exact ⟨level, back :: below, if_pos larger, List.suffix_rfl⟩
    · obtain ⟨list, rest, shape, suffix⟩ := settle_cons level number back below
      exact ⟨list, rest, (if_neg larger).trans shape, suffix.trans (List.suffix_cons back below)⟩

theorem closeLists_written {below : Trail} (numbers : ∀ back ∈ below, back.2 < entries.length)
    (h : Reads out (.list :: openedBy below) entries) :
    ∃ out', closeLists level out ((back :: below).map (·.1))
        = (out', (settle level number (back :: below)).map (·.1)) ∧
      Reads out' (.list :: openedBy ((settle level number (back :: below)).drop 1)) entries := by
  induction below generalizing back out with
  | nil => exact ⟨out, rfl, h⟩
  | cons next rest ih =>
    by_cases deeper : level < back.1
    · rw [settle_pos deeper (List.cons_ne_nil _ _)]
      have closed := h.endInner (numbers next List.mem_cons_self)
      obtain ⟨out', done, reads⟩ := ih (fun back inside => numbers back (List.mem_cons_of_mem _ inside)) closed
      refine ⟨out', ?_, reads⟩
      rw [← done]
      exact if_pos deeper
    · rw [settle_neg deeper]
      exact ⟨out, if_neg deeper, h⟩

theorem placeLevel_written {lists : Lists} (h : Written lists trail entries) (level : Int) :
    (placeLevel lists level).levels = (place level entries.length trail).map (·.1) ∧
    Reads (placeLevel lists level).out (.list :: openedBy ((place level entries.length trail).drop 1)) entries := by
  have levels := h.levels
  cases trail with
  | nil =>
    simp only [placeLevel, levels, List.map_nil]
    exact ⟨rfl, h.reads.list (.inl ⟨rfl, h.empty rfl⟩)⟩
  | cons back below =>
    have older := h.numbers back List.mem_cons_self
    simp only [placeLevel, levels, List.map_cons, place]
    split
    · exact ⟨rfl, h.reads.list (.inr ⟨_, _, rfl, older⟩)⟩
    · rw [if_pos (h.itemOpen (List.cons_ne_nil _ _))]
      obtain ⟨out', done, reads⟩ := closeLists_written
        (fun link inside => h.numbers link (List.mem_cons_of_mem _ inside)) (h.reads.endItem older)
      rw [List.map_cons] at done
      rw [done]
      exact ⟨rfl, reads⟩

theorem around_openedBy (rest : Trail) (list : Int) (number : Nat) :
    around (.item number :: .list :: openedBy rest) = parentIn ((list, number) :: rest) := by
  cases rest <;> rfl

theorem writeHeading_written {lists : Lists} (h : Written lists trail entries) (heading : MarkdownHeading) :
    Written (writeHeading lists heading) (place heading.level entries.length trail)
      (entries ++ [⟨linkTag heading, escapeHtml heading.text,
        parentIn (place heading.level entries.length trail)⟩]) := by
  obtain ⟨levels, reads⟩ := placeLevel_written h heading.level
  obtain ⟨list, rest, shape, suffix⟩ := place_cons heading.level entries.length trail
  refine ⟨levels, ?_, ?_, fun _ => rfl, fun none => ?_⟩
  · rw [shape, List.drop_succ_cons, List.drop_zero] at reads
    rw [shape]
    have more := (reads.item.startLink heading).endLink (escapeHtml_plain heading.text).1
    rw [around_openedBy rest list] at more
    have same : (writeHeading lists heading).out
        = (placeLevel lists heading.level).out ++ ascii "<li>" ++ ('<'.toUInt8 :: linkTag heading ++ ['>'.toUInt8])
          ++ (escapeHtml heading.text ++ ascii "</a>") := by
      have start : ascii "<li><" = ascii "<li>" ++ ['<'.toUInt8] := rfl
      have bracket : ascii ">" = ['>'.toUInt8] := rfl
      simp [writeHeading, start, bracket]
    rw [same]
    exact more
  · intro back inside
    rw [shape] at inside
    simp only [List.length_append, List.length_singleton]
    cases inside with
    | head => exact Nat.lt_succ_self _
    | tail _ old => exact (h.numbers back (suffix.subset old)).trans (Nat.lt_succ_self _)
  · rw [shape] at none
    cases none

theorem outlineEntries_snoc {headings : List MarkdownHeading} {parents : List (Option Nat)}
    (same : headings.length = parents.length) (heading : MarkdownHeading) (parent : Option Nat) :
    outlineEntries (headings ++ [heading]) (parents ++ [parent])
      = outlineEntries headings parents ++ [⟨linkTag heading, escapeHtml heading.text, parent⟩] :=
  List.zipWith_append same

theorem writtenParents_length (earlier : List Int) : (writtenParents earlier).length = earlier.length := by
  induction earlier with
  | nil => rfl
  | cons level before ih => simp [writtenParents, ih]

/-- After any headings the lists read as their entries. -/
theorem headings_written (headings : List MarkdownHeading) :
    Written (headings.foldl writeHeading { out := [], levels := [], itemOpen := false })
      (trailAfter (headings.map (·.level)).reverse)
      (outlineEntries headings (writtenParents (headings.map (·.level)).reverse)) := by
  induction headings using List.reverseRecOn with
  | nil => exact ⟨rfl, reads_nil, by simp [trailAfter], by simp [trailAfter], fun _ => rfl⟩
  | append_singleton headings heading ih =>
    have count : headings.length = (writtenParents (headings.map (·.level)).reverse).length := by
      simp [writtenParents_length]
    have entriesCount : (outlineEntries headings (writtenParents (headings.map (·.level)).reverse)).length
        = (headings.map (·.level)).reverse.length := by
      simp [outlineEntries, ← count]
    have step := writeHeading_written ih heading
    rw [entriesCount] at step
    rw [List.foldl_append, List.map_append, List.reverse_append]
    simp only [List.map_cons, List.map_nil, List.reverse_cons, List.reverse_nil, List.nil_append,
      List.singleton_append, writtenParents, outlineEntries_snoc count]
    exact step

theorem closing_reads {below : Trail} (numbers : ∀ back ∈ below, back.2 < entries.length)
    (h : Reads out (.list :: openedBy below) entries) :
    Reads (out ++ (below.map (·.1)).flatMap (fun _ => ascii "</ul></li>") ++ ascii "</ul>") [] entries := by
  induction below generalizing out with
  | nil =>
    rw [List.map_nil, List.flatMap_nil, List.append_nil]
    exact h.endList
  | cons next rest ih =>
    have closed := ih (fun back inside => numbers back (List.mem_cons_of_mem _ inside))
      (h.endInner (numbers next List.mem_cons_self))
    rw [List.map_cons, List.flatMap_cons, ← List.append_assoc out]
    exact closed

/-- The outline always reads as nested lists that hold the selected headings
once and in order. -/
theorem renderOutline_reads (outline : List MarkdownHeading) (minLevel maxLevel : Int) :
    readLists (renderOutline outline minLevel maxLevel)
      = some (outlineEntries (selected outline minLevel maxLevel)
          (writtenParents ((selected outline minLevel maxLevel).map (·.level)).reverse)) := by
  have done {out : Bytes} {entries : List Entry} (h : Reads out [] entries) : readLists out = some entries := by
    rw [readLists, h]
    rfl
  have written := headings_written (selected outline minLevel maxLevel)
  rw [renderOutline]
  generalize (selected outline minLevel maxLevel).foldl writeHeading _ = lists at written ⊢
  generalize trailAfter _ = trail at written
  have levels := written.levels
  cases trail with
  | nil =>
    rw [List.map_nil] at levels
    rw [if_pos levels]
    exact done written.reads
  | cons back below =>
    have filled : lists.levels ≠ [] := by simp [levels]
    rw [if_neg filled, levels]
    exact done (closing_reads (fun link inside => written.numbers link (List.mem_cons_of_mem _ inside))
      (written.reads.endItem (written.numbers back List.mem_cons_self)))

theorem outlineEntries_parents {headings : List MarkdownHeading} {parents : List (Option Nat)}
    (same : headings.length = parents.length) : (outlineEntries headings parents).map (·.parent) = parents := by
  induction headings generalizing parents with
  | nil => exact (List.eq_nil_of_length_eq_zero same.symm).symm
  | cons heading rest ih =>
    cases parents with
    | nil => cases same
    | cons parent others => exact congrArg (parent :: ·) (ih (Nat.succ_inj.mp same))

/-- The outline of a page is nested lists with every selected heading once and
in order, and each stands below the nearest shallower one before it exactly
when the levels are even. -/
theorem outline_nests_iff_even (outline : List MarkdownHeading) (minLevel maxLevel : Int) :
    (∃ parents : List (Option Nat), parents.length = (selected outline minLevel maxLevel).length ∧
      readLists (renderOutline outline minLevel maxLevel)
        = some (outlineEntries (selected outline minLevel maxLevel) parents)) ∧
    (readLists (renderOutline outline minLevel maxLevel)
        = some (outlineEntries (selected outline minLevel maxLevel)
            (nearests ((selected outline minLevel maxLevel).map (·.level)))) ↔
      Even ((selected outline minLevel maxLevel).map (·.level))) := by
  have reads := renderOutline_reads outline minLevel maxLevel
  generalize selected outline minLevel maxLevel = headings at reads ⊢
  have count : (writtenParents (headings.map (·.level)).reverse).length = headings.length := by
    simp [writtenParents_length]
  refine ⟨⟨_, count, reads⟩, ?_⟩
  have agree := (writtenParents_iff (headings.map (·.level)).reverse).1
  rw [List.reverse_reverse] at agree
  rw [reads, ← agree, Option.some_inj]
  constructor
  · intro same
    have parents := congrArg (List.map (·.parent)) same
    rwa [outlineEntries_parents count.symm, outlineEntries_parents (by simp)] at parents
  · intro same
    rw [same]

/-- A heading after a deeper one is a sibling of the shallower heading before both. -/
theorem outline_drops_level : ¬ ∀ (outline : List MarkdownHeading) (minLevel maxLevel : Int),
    readLists (renderOutline outline minLevel maxLevel)
      = some (outlineEntries (selected outline minLevel maxLevel)
          (nearests ((selected outline minLevel maxLevel).map (·.level)))) := by
  intro holds
  have wrong := holds [⟨2, ascii "a", ascii "a"⟩, ⟨4, ascii "b", ascii "b"⟩, ⟨3, ascii "c", ascii "c"⟩] 2 4
  revert wrong
  decide +kernel

end CkGit.Outline
