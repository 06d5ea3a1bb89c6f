/-
The text of a report on scopes, read back.

A name may look like anything, a line of a report included, as long as it has no line feed.
So the lines are cut out of the text first, and each is read on its own: the line of a binding
from its end, where offsets and a kind leave no doubt, and only what is then left is the name.
No heading has a parenthesis and every line of a binding has one, so the two are told apart.

Headings are indented by depth, and the scopes inside a scope are one deeper than it is.  So
the lines of the scopes at some depth go on up to the first heading further out, `Ends`, and
reports one after another can be read off their lines: `linesOfAll_append_inj`.  That needs no
more of the reports than that they are `Regular`.
-/
import Mathlib.Data.List.Basic
import TreeWalk.Report.Scopes

namespace TreeWalk

/-! ### Cutting texts -/

section

variable {α : Type} {a c c' : α} {x x' z z' : List α}

/-- Two lists are cut alike where something occurs first. -/
theorem cut_at_first (h : x ++ a :: z = x' ++ a :: z') (hx : a ∉ x) (hx' : a ∉ x') :
    x = x' ∧ z = z' := by
  induction x generalizing x' with
  | nil =>
    cases x' with
    | nil => exact ⟨rfl, (List.cons.inj h).2⟩
    | cons b x' => exact absurd (List.cons.inj h).1 (List.ne_of_not_mem_cons hx')
  | cons b x ih =>
    cases x' with
    | nil => exact absurd (List.cons.inj h).1.symm (List.ne_of_not_mem_cons hx)
    | cons b' x' =>
      obtain ⟨rfl, htail⟩ := List.cons.inj h
      obtain ⟨rfl, rfl⟩ := ih htail (List.not_mem_of_not_mem_cons hx)
        (List.not_mem_of_not_mem_cons hx')
      exact ⟨rfl, rfl⟩

/-- Two lists are cut alike where something occurs last. -/
theorem cut_at_last (h : x ++ a :: z = x' ++ a :: z') (hz : a ∉ z) (hz' : a ∉ z') :
    x = x' ∧ z = z' := by
  have hreverse : z.reverse ++ a :: x.reverse = z'.reverse ++ a :: x'.reverse := by
    simpa using congrArg List.reverse h
  obtain ⟨hzz, hxx⟩ := cut_at_first hreverse (by simpa using hz) (by simpa using hz')
  exact ⟨List.reverse_injective hxx, List.reverse_injective hzz⟩

/-- Two lists are cut alike where something ceases to be repeated. -/
theorem cut_after_replicate {m n : Nat}
    (h : List.replicate m a ++ c :: z = List.replicate n a ++ c' :: z') (hc : c ≠ a)
    (hc' : c' ≠ a) : m = n ∧ c :: z = c' :: z' := by
  induction m generalizing n with
  | zero =>
    cases n with
    | zero => exact ⟨rfl, h⟩
    | succ n => exact absurd (List.cons.inj h).1 hc
  | succ m ih =>
    cases n with
    | zero => exact absurd (List.cons.inj h).1.symm hc'
    | succ n =>
      obtain ⟨rfl, hrest⟩ := ih (List.cons.inj h).2
      exact ⟨rfl, hrest⟩

end

/-- Lines without line feeds can be told from their text. -/
theorem join_lines_injective {ls ls' : List String} (hls : ∀ l ∈ ls, '\n' ∉ l.toList)
    (hls' : ∀ l ∈ ls', '\n' ∉ l.toList)
    (h : String.join (ls.map (· ++ "\n")) = String.join (ls'.map (· ++ "\n"))) : ls = ls' := by
  have hchars (ls : List String) : (String.join (ls.map (· ++ "\n"))).toList =
      ls.flatMap fun l => l.toList ++ ['\n'] := by
    rw [String.toList_join, List.flatMap_map]
    simp
  have hflat := congrArg String.toList h
  rw [hchars, hchars] at hflat
  clear h
  induction ls generalizing ls' with
  | nil =>
    cases ls' with
    | nil => rfl
    | cons l' ls' => simp at hflat
  | cons l ls ih =>
    cases ls' with
    | nil => simp at hflat
    | cons l' ls' =>
      simp only [List.flatMap_cons, List.append_assoc, List.singleton_append] at hflat
      obtain ⟨hl, hrest⟩ := cut_at_first hflat (hls l (List.mem_cons_self ..))
        (hls' l' (List.mem_cons_self ..))
      rw [String.toList_inj.1 hl, ih (fun l hl => hls l (List.mem_cons_of_mem _ hl))
        (fun l hl => hls' l (List.mem_cons_of_mem _ hl)) hrest]

/-! ### The line of a binding -/

namespace Span

theorem toList_text (r : Span) : r.text.toList =
    Nat.toDigits 10 r.start.toNat ++ '.' :: ('.' :: Nat.toDigits 10 r.stop.toNat) := by
  simp [text, toString]

theorem text_injective {r r' : Span} (h : r.text = r'.text) : r = r' := by
  have hdot (n : Nat) : '.' ∉ Nat.toDigits 10 n := fun hmem =>
    absurd (Nat.isDigit_of_mem_toDigits (by decide) (by decide) hmem) (by decide)
  have hvalue {o o' : Offset} (ho : Nat.toDigits 10 o.toNat = Nat.toDigits 10 o'.toNat) :
      o = o' := by
    have := congrArg (Nat.ofDigitChars 10 · 0) ho
    rwa [Nat.ofDigitChars_toDigits (by decide) (by decide),
      Nat.ofDigitChars_toDigits (by decide) (by decide), UInt32.toNat_inj] at this
  have hchars := congrArg String.toList h
  rw [toList_text, toList_text] at hchars
  obtain ⟨hstart, hstop⟩ := cut_at_first hchars (hdot _) (hdot _)
  exact congrArg₂ Span.mk (hvalue hstart) (hvalue (List.cons.inj hstop).2)

end Span

namespace BindingReport

/-- The name has no line feed, and both offsets are recorded or neither. -/
structure Plain (b : BindingReport) : Prop where
  name : '\n' ∉ b.name.toList
  offsets : b.start.isSome = b.stop.isSome

instance (b : BindingReport) : Decidable b.Plain :=
  decidable_of_iff ('\n' ∉ b.name.toList ∧ b.start.isSome = b.stop.isSome)
    ⟨fun h => ⟨h.1, h.2⟩, fun h => ⟨h.name, h.offsets⟩⟩

variable {b b' : BindingReport}

theorem toList_line (b : BindingReport) : b.line.toList =
    (b.name.toList ++ [' ']) ++ '(' :: (b.kind.name.toList ++ ')' :: b.place.toList) := by
  simp [line]

/-- Few characters occur in a place. -/
theorem mem_place {c : Char} (hc : c ∈ b.place.toList) :
    c ∈ [' ', 'a', 't', '.'] ∨ c.isDigit = true := by
  have hword : " at ".toList ⊆ [' ', 'a', 't', '.'] := by decide
  have hdigit {n : Nat} (hc : c ∈ Nat.toDigits 10 n) : c.isDigit = true :=
    Nat.isDigit_of_mem_toDigits (by decide) (by decide) hc
  rw [place] at hc
  split at hc
  · rw [String.toList_append, Span.toList_text] at hc
    simp only [List.mem_append, List.mem_cons] at hc
    rcases hc with hc | hc | rfl | rfl | hc
    · exact .inl (hword hc)
    · exact .inr (hdigit hc)
    · exact .inl (by decide)
    · exact .inl (by decide)
    · exact .inr (hdigit hc)
  · exact absurd hc List.not_mem_nil

/-- A place shows the offsets, if both are recorded or neither. -/
theorem place_injective (hb : b.Plain) (hb' : b'.Plain) (h : b.place = b'.place) :
    b.start = b'.start ∧ b.stop = b'.stop := by
  have hsome (r : Span) : " at " ++ r.text ≠ "" := by
    intro hnil
    have := congrArg String.toList hnil
    simp at this
  obtain ⟨name, kind, start, stop⟩ := b
  obtain ⟨name', kind', start', stop'⟩ := b'
  have hboth := hb.offsets
  have hboth' := hb'.offsets
  rw [place, place] at h
  match start, stop, start', stop' with
  | none, none, none, none => exact ⟨rfl, rfl⟩
  | some start, some stop, none, none => exact absurd h (hsome _)
  | none, none, some start', some stop' => exact absurd h.symm (hsome _)
  | some start, some stop, some start', some stop' =>
    obtain ⟨rfl, rfl⟩ := Span.mk.inj (Span.text_injective (String.append_right_inj _ |>.1 h))
    exact ⟨rfl, rfl⟩

/-- **A binding can be told from its line.** -/
theorem line_injective (hb : b.Plain) (hb' : b'.Plain) (h : b.line = b'.line) : b = b' := by
  have hkind (kind : BindingKind) : '(' ∉ kind.name.toList ∧ ')' ∉ kind.name.toList := by
    cases kind <;> decide
  have hrest (b : BindingReport) : '(' ∉ b.kind.name.toList ++ ')' :: b.place.toList := by
    rw [List.mem_append, List.mem_cons]
    rintro (hmem | hmem | hmem)
    · exact (hkind b.kind).1 hmem
    · exact absurd hmem (by decide)
    · exact absurd (mem_place hmem) (by decide)
  have hnames : Function.Injective BindingKind.name := by
    intro kind kind'
    cases kind <;> cases kind' <;> decide
  have hchars := congrArg String.toList h
  rw [toList_line, toList_line] at hchars
  -- no parenthesis opens after the one before the kind
  obtain ⟨hname, hafter⟩ := cut_at_last hchars (hrest b) (hrest b')
  obtain ⟨hname', hplace⟩ := cut_at_first hafter (hkind b.kind).2 (hkind b'.kind).2
  obtain ⟨hstart, hstop⟩ := place_injective hb hb' (String.toList_inj.1 hplace)
  obtain ⟨name, kind, start, stop⟩ := b
  obtain ⟨name', kind', start', stop'⟩ := b'
  obtain rfl := String.toList_inj.1 (List.append_cancel_right hname)
  obtain rfl := hnames (String.toList_inj.1 hname')
  obtain rfl : start = start' := hstart
  obtain rfl : stop = stop' := hstop
  rfl

end BindingReport

/-! ### Headings and entries -/

namespace ScopeReport

variable {depth depth' : Nat} {kind kind' : ScopeKind} {b b' : BindingReport}

theorem toList_indentation (depth : Nat) :
    (indentation depth).toList = List.replicate (2 * depth) ' ' :=
  String.toList_ofList

/-- What stands on the line of a scope after the blanks. -/
theorem exists_heading (depth : Nat) (kind : ScopeKind) :
    ∃ c rest, (kind.name ++ " scope").toList = c :: rest ∧ c ≠ ' ' ∧
      (heading depth kind).toList = List.replicate (2 * depth) ' ' ++ c :: rest := by
  have hword : ∃ c rest, (kind.name ++ " scope").toList = c :: rest ∧ c ≠ ' ' := by
    cases kind <;> exact ⟨_, _, rfl, by decide⟩
  obtain ⟨c, rest, hrest, hc⟩ := hword
  refine ⟨c, rest, hrest, hc, ?_⟩
  rw [heading, String.append_assoc, String.toList_append, toList_indentation, hrest]

theorem heading_injective (h : heading depth kind = heading depth' kind') :
    depth = depth' ∧ kind = kind' := by
  obtain ⟨c, rest, hword, hc, hchars⟩ := exists_heading depth kind
  obtain ⟨c', rest', hword', hc', hchars'⟩ := exists_heading depth' kind'
  rw [h, hchars'] at hchars
  obtain ⟨hdepth, hsame⟩ := cut_after_replicate hchars hc' hc
  refine ⟨Nat.eq_of_mul_eq_mul_left Nat.two_pos hdepth.symm, ?_⟩
  have hkind : kind'.name ++ " scope" = kind.name ++ " scope" :=
    String.toList_inj.1 ((hword'.trans hsame).trans hword.symm)
  revert hkind
  cases kind <;> cases kind' <;> decide

theorem toList_entry (depth : Nat) (b : BindingReport) :
    (entry depth b).toList = List.replicate (2 * (depth + 1)) ' ' ++ b.line.toList := by
  rw [entry, String.toList_append, toList_indentation]

theorem entry_injective (hb : b.Plain) (hb' : b'.Plain) (h : entry depth b = entry depth b') :
    b = b' := by
  have hchars := congrArg String.toList h
  rw [toList_entry, toList_entry] at hchars
  exact BindingReport.line_injective hb hb' (String.toList_inj.1 (List.append_cancel_left hchars))

/-- No line is both that of a binding and that of a scope. -/
theorem entry_ne_heading : entry depth b ≠ heading depth' kind := by
  intro h
  have hentry : '(' ∈ (entry depth b).toList := by
    rw [toList_entry, BindingReport.toList_line]
    simp
  rw [h, heading, String.append_assoc, String.toList_append, toList_indentation, List.mem_append,
    List.mem_replicate] at hentry
  rcases hentry with hblank | hword
  · exact absurd hblank.2 (by decide)
  · revert hword
    cases kind <;> decide

/-! ### Reports inside a report -/

/-- The second report is listed so many levels down in the first. -/
inductive Shows : ScopeReport → Nat → ScopeReport → Prop where
  | here (r : ScopeReport) : Shows r 0 r
  | inside {r c r' : ScopeReport} {levels : Nat} (hc : c ∈ r.children) (h : Shows c levels r') :
    Shows r (levels + 1) r'

/-- Every binding that is reported on is plain. -/
def Plain (r : ScopeReport) : Prop :=
  ∀ ⦃levels : Nat⦄ ⦃r' : ScopeReport⦄, r.Shows levels r' → ∀ b ∈ r'.bindings, b.Plain

/-- Depth grows with each level. -/
def Graded (r : ScopeReport) : Prop :=
  ∀ ⦃levels : Nat⦄ ⦃r' : ScopeReport⦄, r.Shows levels r' → r'.depth = r.depth + levels

/-- What a report that can be read back is like. -/
structure Regular (r : ScopeReport) : Prop where
  plain : r.Plain
  graded : r.Graded

theorem Regular.child {r c : ScopeReport} (h : r.Regular) (hc : c ∈ r.children) :
    c.depth = r.depth + 1 ∧ c.Regular := by
  have hdepth := h.graded (.inside hc (.here c))
  refine ⟨hdepth, fun _ _ hr => h.plain (.inside hc hr), fun levels r' hr => ?_⟩
  rw [h.graded (.inside hc hr), hdepth, Nat.add_assoc, Nat.add_comm 1]

mutual
/-- Each line of a report is the heading or an entry of a report inside. -/
theorem of_mem_lines {l : String} : (r : ScopeReport) → l ∈ r.lines →
    ∃ levels r', r.Shows levels r' ∧
      (l = heading r'.depth r'.kind ∨ ∃ b ∈ r'.bindings, l = entry r'.depth b)
  | ⟨kind, depth, bindings, children⟩, hl => by
    rw [lines, List.mem_cons, List.mem_append, List.mem_map] at hl
    rcases hl with rfl | ⟨b, hb, rfl⟩ | hl
    · exact ⟨0, _, .here _, .inl rfl⟩
    · exact ⟨0, _, .here _, .inr ⟨b, hb, rfl⟩⟩
    · obtain ⟨c, hc, levels, r', hr', hline⟩ := of_mem_linesOfAll children hl
      exact ⟨levels + 1, r', .inside hc hr', hline⟩
theorem of_mem_linesOfAll {l : String} : (rs : List ScopeReport) → l ∈ linesOfAll rs →
    ∃ r ∈ rs, ∃ levels r', r.Shows levels r' ∧
      (l = heading r'.depth r'.kind ∨ ∃ b ∈ r'.bindings, l = entry r'.depth b)
  | [], hl => absurd hl List.not_mem_nil
  | r :: rest, hl => by
    rw [linesOfAll, List.mem_append] at hl
    rcases hl with hl | hl
    · exact ⟨r, List.mem_cons_self .., of_mem_lines r hl⟩
    · obtain ⟨r', hr', hline⟩ := of_mem_linesOfAll rest hl
      exact ⟨r', List.mem_cons_of_mem _ hr', hline⟩
end

/-- The lines of a plain report have no line feeds. -/
theorem not_mem_lines {r : ScopeReport} (h : r.Plain) : ∀ l ∈ r.lines, '\n' ∉ l.toList := by
  intro l hl hmem
  have hblank (depth : Nat) : '\n' ∉ List.replicate (2 * depth) ' ' := fun hmem =>
    absurd (List.mem_replicate.1 hmem).2 (by decide)
  obtain ⟨levels, r', hr', rfl | ⟨b, hb, rfl⟩⟩ := of_mem_lines r hl
  · rw [heading, String.append_assoc, String.toList_append, toList_indentation,
      List.mem_append] at hmem
    refine hmem.elim (hblank _) fun hword => ?_
    revert hword
    cases r'.kind <;> decide
  · rw [toList_entry, List.mem_append, BindingReport.toList_line] at hmem
    refine hmem.elim (hblank _) fun hline => ?_
    have hkind : '\n' ∉ b.kind.name.toList := by cases b.kind <;> decide
    simp only [List.mem_append, List.mem_cons, List.not_mem_nil, or_false] at hline
    rcases hline with (hname | hblank) | hopen | hword | hclose | hplace
    · exact (h hr' b hb).name hname
    · exact absurd hblank (by decide)
    · exact absurd hopen (by decide)
    · exact hkind hword
    · exact absurd hclose (by decide)
    · exact absurd (BindingReport.mem_place hplace) (by decide)

/-! ### Reading lines back -/

/-- The lines are none, or the first is a heading further out than some depth. -/
def Ends (depth : Nat) (rest : List String) : Prop :=
  ∀ l ∈ rest.head?, ∃ d < depth, ∃ kind, l = heading d kind

variable {rest rest' : List String}

theorem ends_nil (depth : Nat) : Ends depth [] := fun _ hl => nomatch hl

theorem Ends.mono (h : Ends depth rest) (hle : depth ≤ depth') : Ends depth' rest := by
  intro l hl
  obtain ⟨d, hd, hheading⟩ := h l hl
  exact ⟨d, Nat.lt_of_lt_of_le hd hle, hheading⟩

/-- The first line of a report is its heading. -/
theorem exists_lines : (r : ScopeReport) → ∃ more, r.lines = heading r.depth r.kind :: more
  | ⟨_, _, _, _⟩ => ⟨_, by rw [lines]⟩

theorem ends_linesOfAll {rs : List ScopeReport} (hrs : ∀ r ∈ rs, r.depth = depth)
    (hrest : Ends depth rest) : Ends (depth + 1) (linesOfAll rs ++ rest) := by
  cases rs with
  | nil => exact hrest.mono (Nat.le_succ _)
  | cons r rs =>
    intro l hl
    obtain ⟨more, hmore⟩ := exists_lines r
    rw [linesOfAll, hmore] at hl
    obtain rfl := Option.some.inj hl
    have hdepth := hrs r (List.mem_cons_self ..)
    exact ⟨r.depth, hdepth ▸ Nat.lt_succ_self _, r.kind, rfl⟩

/-- The lines of a report are none further out than it is. -/
theorem not_ends_lines {r : ScopeReport} {more : List String} :
    ¬ Ends r.depth (r.lines ++ more) := by
  intro h
  obtain ⟨more', hmore⟩ := exists_lines r
  rw [hmore] at h
  obtain ⟨d, hd, kind, hheading⟩ := h _ rfl
  exact Nat.ne_of_gt hd (heading_injective hheading).1

/-- Entries go on up to the first heading. -/
theorem entries_append_inj {bs bs' : List BindingReport} (hbs : ∀ b ∈ bs, b.Plain)
    (hbs' : ∀ b ∈ bs', b.Plain) (hrest : Ends depth' rest) (hrest' : Ends depth' rest')
    (h : bs.map (entry depth) ++ rest = bs'.map (entry depth) ++ rest') :
    bs = bs' ∧ rest = rest' := by
  have hclash {b : BindingReport} {more ls : List String}
      (hls : ls = entry depth b :: more) : ¬ Ends depth' ls := by
    intro hends
    obtain ⟨d, -, kind, hheading⟩ := hends (entry depth b) (hls ▸ rfl)
    exact entry_ne_heading hheading
  induction bs generalizing bs' with
  | nil =>
    cases bs' with
    | nil => exact ⟨rfl, h⟩
    | cons b' bs' => exact absurd hrest (hclash h)
  | cons b bs ih =>
    cases bs' with
    | nil => exact absurd hrest' (hclash h.symm)
    | cons b' bs' =>
      obtain ⟨hentry, htail⟩ := List.cons.inj h
      obtain rfl := entry_injective (hbs b (List.mem_cons_self ..))
        (hbs' b' (List.mem_cons_self ..)) hentry
      obtain ⟨rfl, rfl⟩ := ih (fun b hb => hbs b (List.mem_cons_of_mem _ hb))
        (fun b hb => hbs' b (List.mem_cons_of_mem _ hb)) htail
      exact ⟨rfl, rfl⟩

mutual
/-- A report can be told from its lines, if none follow that could belong to it. -/
theorem lines_append_inj {rest rest' : List String} : (r r' : ScopeReport) → r.Regular →
    r'.Regular → Ends (r.depth + 1) rest → Ends (r'.depth + 1) rest' →
    r.lines ++ rest = r'.lines ++ rest' → r = r' ∧ rest = rest'
  | ⟨kind, depth, bindings, children⟩, ⟨kind', depth', bindings', children'⟩, hr, hr', hrest,
      hrest', h => by
    rw [lines, lines, List.cons_append, List.cons_append, List.append_assoc,
      List.append_assoc] at h
    obtain ⟨hheading, hafter⟩ := List.cons.inj h
    obtain ⟨rfl, rfl⟩ := heading_injective hheading
    obtain ⟨rfl, hinside⟩ := entries_append_inj (hr.plain (.here _)) (hr'.plain (.here _))
      (ends_linesOfAll (fun c hc => (hr.child hc).1) hrest)
      (ends_linesOfAll (fun c hc => (hr'.child hc).1) hrest') hafter
    obtain ⟨rfl, rfl⟩ := linesOfAll_append_inj children children' (fun c hc => hr.child hc)
      (fun c hc => hr'.child hc) hrest hrest' hinside
    exact ⟨rfl, rfl⟩
/-- **Reports at some depth can be told from their lines, one after another.** -/
theorem linesOfAll_append_inj {depth : Nat} {rest rest' : List String} :
    (rs rs' : List ScopeReport) → (∀ r ∈ rs, r.depth = depth ∧ r.Regular) →
    (∀ r ∈ rs', r.depth = depth ∧ r.Regular) → Ends depth rest → Ends depth rest' →
    linesOfAll rs ++ rest = linesOfAll rs' ++ rest' → rs = rs' ∧ rest = rest'
  | [], [], _, _, _, _, h => ⟨rfl, h⟩
  | [], r' :: rs', _, hrs', hrest, _, h => by
    have hdepth := (hrs' r' (List.mem_cons_self ..)).1
    rw [linesOfAll, linesOfAll, List.nil_append, List.append_assoc] at h
    exact absurd (h ▸ hdepth.symm ▸ hrest) not_ends_lines
  | r :: rs, [], hrs, _, _, hrest', h => by
    have hdepth := (hrs r (List.mem_cons_self ..)).1
    rw [linesOfAll, linesOfAll, List.nil_append, List.append_assoc] at h
    exact absurd (h ▸ hdepth.symm ▸ hrest') not_ends_lines
  | r :: rs, r' :: rs', hrs, hrs', hrest, hrest', h => by
    obtain ⟨hdepth, hregular⟩ := hrs r (List.mem_cons_self ..)
    obtain ⟨hdepth', hregular'⟩ := hrs' r' (List.mem_cons_self ..)
    have htail := fun c hc => hrs c (List.mem_cons_of_mem _ hc)
    have htail' := fun c hc => hrs' c (List.mem_cons_of_mem _ hc)
    rw [linesOfAll, linesOfAll, List.append_assoc, List.append_assoc] at h
    obtain ⟨rfl, hafter⟩ := lines_append_inj r r' hregular hregular'
      (hdepth ▸ ends_linesOfAll (fun c hc => (htail c hc).1) hrest)
      (hdepth' ▸ ends_linesOfAll (fun c hc => (htail' c hc).1) hrest') h
    obtain ⟨rfl, rfl⟩ := linesOfAll_append_inj rs rs' htail htail' hrest hrest' hafter
    exact ⟨rfl, rfl⟩
end

/-! ### The whole text -/

/-- A text ends in a character that is not white space. -/
def Closed (s : String) : Prop := ∃ body c, s.toList = body ++ [c] ∧ Text.isSpace c = false

theorem Closed.append {t : String} (h : Closed t) (s : String) : Closed (s ++ t) := by
  obtain ⟨body, c, ht, hc⟩ := h
  exact ⟨s.toList ++ body, c, by rw [String.toList_append, ht, List.append_assoc], hc⟩

theorem closed_line (b : BindingReport) : Closed b.line := by
  rw [BindingReport.line, BindingReport.place]
  split
  next start stop _ _ =>
    obtain ⟨body, c, hc⟩ := (List.eq_nil_or_concat' (Nat.toDigits 10 stop.toNat)).resolve_left
      Nat.toDigits_ne_nil
    have hdigit : c.isDigit = true :=
      Nat.isDigit_of_mem_toDigits (by decide) (by decide) (hc ▸ List.mem_concat_self)
    have htext : Closed (Span.mk start stop).text := by
      refine ⟨Nat.toDigits 10 start.toNat ++ '.' :: '.' :: body, c, ?_,
        Text.isSpace_of_isDigit hdigit⟩
      rw [Span.toList_text, hc]
      simp
    exact (htext.append _).append _
  next =>
    rw [String.append_empty]
    exact Closed.append ⟨[], ')', rfl, by decide⟩ _

/-- No line of a report ends in white space, whatever the names are. -/
theorem closed_of_mem_lines {r : ScopeReport} {l : String} (hl : l ∈ r.lines) : Closed l := by
  obtain ⟨levels, r', -, rfl | ⟨b, -, rfl⟩⟩ := of_mem_lines r hl
  · exact Closed.append ⟨" scop".toList, 'e', rfl, by decide⟩ _
  · exact (closed_line b).append _

/-- **The text of a report is its lines without the last line feed.** -/
theorem rendered_eq (r : ScopeReport) : r.rendered = r.text ++ "\n" := by
  obtain ⟨first, hfirst⟩ := exists_lines r
  obtain ⟨init, l, hlines⟩ : ∃ init l, r.lines = init ++ [l] :=
    (List.eq_nil_or_concat' r.lines).resolve_left (by rw [hfirst]; exact List.cons_ne_nil _ _)
  obtain ⟨body, c, hl, hc⟩ := closed_of_mem_lines (hlines ▸ List.mem_concat_self : l ∈ r.lines)
  have hchars : r.rendered.toList =
      ((String.join (init.map (· ++ "\n"))).toList ++ body) ++ c :: ['\n'] := by
    simp [rendered, hlines, String.join_append, hl]
  have hrendered := String.toList_inj.1 (hchars.trans String.toList_ofList.symm)
  have hfeed : ∀ x ∈ ['\n'], Text.isSpace x = true := List.forall_mem_singleton.2 (by decide)
  rw [text, hrendered, Text.trimmedEnd_append hc hfeed, ← String.toList_inj]
  simp

/-- **Reports can be told from their text.** -/
theorem text_injective {r r' : ScopeReport} (hr : r.Regular) (hr' : r'.Regular)
    (h : r.text = r'.text) : r = r' := by
  have hrendered : r.rendered = r'.rendered := by rw [rendered_eq, rendered_eq, h]
  have hlines := join_lines_injective (not_mem_lines hr.plain) (not_mem_lines hr'.plain) hrendered
  have happend : r.lines ++ [] = r'.lines ++ [] := by rw [hlines]
  exact (lines_append_inj r r' hr hr' (ends_nil _) (ends_nil _) happend).1

end ScopeReport

end TreeWalk
