import AdaptiveHls.Proofs.Playlist.Written
import AdaptiveHls.Proofs.Text.Pieces
import Mathlib.Algebra.Group.Nat.Even
import Mathlib.Data.List.Induction

/-!
# Attribute lists as they are written

Two things are in the way of reading back what was written: a comma may belong to a value, and a name
may come again. A comma divides a list if the quotes in front of it are paired, wherever they stand,
so a value may hold commas as long as its own quotes are paired around them. A name that comes again
takes its new value to its old place. So the places of a list are in the order in which names come
first, and its values are those that come last.
-/

namespace AdaptiveHls.Attributes

/-! ## Pieces -/

/-- Whether quotes are open behind a text that follows open quotes or none. -/
def openAfter (quoted : Bool) (cs : List Char) : Bool :=
  cs.foldl (fun q c => if c == '"' then !q else q) quoted

/-- A text without a comma outside quotes, where it follows open quotes or none. -/
def Whole (quoted : Bool) (cs : List Char) : Prop :=
  ∀ before after, cs = before ++ ',' :: after → openAfter quoted before = true

/-- The pieces are what the text falls into at exactly the commas that have an even number of quotes
in front of them. -/
structure Divides (text : List Char) (pieces : List (List Char)) : Prop where
  joined : [','].intercalate pieces = text
  places : ∀ before after, text = before ++ ',' :: after →
    (Even (before.count '"') ↔
      ∃ front back, front ≠ [] ∧ back ≠ [] ∧ pieces = front ++ back ∧
        [','].intercalate front = before)

variable {quoted : Bool} {cs ds rest before after : List Char}

@[simp] theorem openAfter_nil (quoted : Bool) : openAfter quoted [] = quoted := rfl
@[simp] theorem openAfter_cons (quoted : Bool) (c : Char) (cs : List Char) :
    openAfter quoted (c :: cs) = openAfter (if c == '"' then !quoted else quoted) cs := rfl
@[simp] theorem openAfter_append (quoted : Bool) (cs ds : List Char) :
    openAfter quoted (cs ++ ds) = openAfter (openAfter quoted cs) ds := List.foldl_append

/-- An even number of quotes leaves open what was open, and closed what was closed. -/
theorem openAfter_eq_self_iff : openAfter quoted cs = quoted ↔ Even (cs.count '"') := by
  induction cs generalizing quoted with
  | nil => simp
  | cons c cs ih =>
    by_cases hc : c = '"'
    · have hflip : openAfter (!quoted) cs = quoted ↔ ¬ openAfter (!quoted) cs = !quoted := by
        cases openAfter (!quoted) cs <;> cases quoted <;> simp
      rw [openAfter_cons, hc, List.count_cons_self, Nat.even_add_one]
      exact hflip.trans (not_congr ih)
    · rw [openAfter_cons, if_neg (by simpa using hc), List.count_cons_of_ne hc, ih]

theorem pieces_ne_nil (quoted : Bool) (cs : List Char) : pieces quoted cs ≠ [] := by
  cases cs with
  | nil => exact List.cons_ne_nil _ _
  | cons c rest =>
    rw [pieces]
    split
    · exact List.cons_ne_nil _ _
    · split <;> exact List.cons_ne_nil _ _

/-- A comma outside quotes ends a piece. -/
theorem pieces_comma (rest : List Char) : pieces false (',' :: rest) = [] :: pieces false rest := rfl

/-- Any other character belongs to the first piece. -/
theorem pieces_cons {c : Char} (h : c = ',' → quoted = true) (rest : List Char) :
    ∃ piece more, pieces (if c == '"' then !quoted else quoted) rest = piece :: more ∧
      pieces quoted (c :: rest) = (c :: piece) :: more := by
  obtain ⟨piece, more, hrest⟩ :=
    List.exists_cons_of_ne_nil (pieces_ne_nil (if c == '"' then !quoted else quoted) rest)
  refine ⟨piece, more, hrest, ?_⟩
  have hno : ¬ (c == ',' && !quoted) = true := by
    simp only [Bool.and_eq_true, beq_iff_eq, Bool.not_eq_true', not_and, Bool.not_eq_false]
    exact h
  rw [pieces, if_neg hno, hrest]

/-- The pieces with commas between them are the whole text again. -/
theorem intercalate_pieces (quoted : Bool) (cs : List Char) :
    [','].intercalate (pieces quoted cs) = cs := by
  induction cs generalizing quoted with
  | nil => rfl
  | cons c rest ih =>
    by_cases hc : c = ',' ∧ quoted = false
    · rw [hc.1, hc.2, pieces_comma, Text.intercalate_nil_cons ',' (pieces_ne_nil _ _), ih]
    · have hopen : c = ',' → quoted = true := fun h => by simpa using fun hq => hc ⟨h, hq⟩
      obtain ⟨piece, more, hrest, hpieces⟩ := pieces_cons hopen rest
      rw [hpieces, Text.intercalate_cons_head, ← hrest, ih]

/-- The first character of a text is that of its first piece, and no more than that is joined. -/
theorem exists_front_cons_iff (c : Char) {piece : List Char} {more : List (List Char)} :
    (∃ front back, front ≠ [] ∧ back ≠ [] ∧ (c :: piece) :: more = front ++ back ∧
        [','].intercalate front = c :: before) ↔
      ∃ front back, front ≠ [] ∧ back ≠ [] ∧ piece :: more = front ++ back ∧
        [','].intercalate front = before := by
  constructor
  · rintro ⟨_ | ⟨head, front⟩, back, hfront, hback, hpieces, hjoined⟩
    · exact absurd rfl hfront
    obtain ⟨rfl, rfl⟩ := List.cons_eq_cons.1 hpieces
    rw [Text.intercalate_cons_head] at hjoined
    exact ⟨piece :: front, back, List.cons_ne_nil _ _, hback, rfl, (List.cons_eq_cons.1 hjoined).2⟩
  · rintro ⟨_ | ⟨head, front⟩, back, hfront, hback, hpieces, hjoined⟩
    · exact absurd rfl hfront
    obtain ⟨rfl, rfl⟩ := List.cons_eq_cons.1 hpieces
    exact ⟨(c :: piece) :: front, back, List.cons_ne_nil _ _, hback, rfl,
      by rw [Text.intercalate_cons_head, hjoined]⟩

/-- An empty piece in front is the empty front, and a comma more in all others. -/
theorem exists_front_comma_iff {more : List (List Char)} :
    (∃ front back, front ≠ [] ∧ back ≠ [] ∧ [] :: more = front ++ back ∧
        [','].intercalate front = ',' :: before) ↔
      ∃ front back, front ≠ [] ∧ back ≠ [] ∧ more = front ++ back ∧
        [','].intercalate front = before := by
  constructor
  · rintro ⟨_ | ⟨head, front⟩, back, hfront, hback, hpieces, hjoined⟩
    · exact absurd rfl hfront
    obtain ⟨rfl, rfl⟩ := List.cons_eq_cons.1 hpieces
    have hne : front ≠ [] := by
      rintro rfl
      simp at hjoined
    rw [Text.intercalate_nil_cons ',' hne] at hjoined
    exact ⟨front, back, hne, hback, rfl, (List.cons_eq_cons.1 hjoined).2⟩
  · rintro ⟨front, back, hfront, hback, rfl, hjoined⟩
    exact ⟨[] :: front, back, List.cons_ne_nil _ _, hback, rfl,
      by rw [Text.intercalate_nil_cons ',' hfront, hjoined]⟩

/-- The text is divided at a comma exactly if the comma is outside quotes. -/
theorem pieces_places (quoted : Bool) (h : cs = before ++ ',' :: after) :
    openAfter quoted before = false ↔
      ∃ front back, front ≠ [] ∧ back ≠ [] ∧ pieces quoted cs = front ++ back ∧
        [','].intercalate front = before := by
  induction cs generalizing quoted before with
  | nil => simp at h
  | cons c rest ih =>
    by_cases hc : c = ',' ∧ quoted = false
    · obtain ⟨rfl, rfl⟩ := hc
      rw [pieces_comma]
      cases before with
      | nil => exact ⟨fun _ => ⟨[[]], _, by simp, pieces_ne_nil false rest, rfl, rfl⟩, fun _ => rfl⟩
      | cons b before =>
        obtain ⟨rfl, hrest⟩ := List.cons_eq_cons.1 h
        rw [exists_front_comma_iff]
        exact ih false hrest
    · have hopen : c = ',' → quoted = true := fun h => by simpa using fun hq => hc ⟨h, hq⟩
      obtain ⟨piece, more, hrest, hpieces⟩ := pieces_cons hopen rest
      rw [hpieces]
      cases before with
      | nil =>
        have hquoted : quoted = true := hopen (List.cons_eq_cons.1 h).1
        refine ⟨fun hopen => by simp [hquoted] at hopen, ?_⟩
        rintro ⟨_ | ⟨head, front⟩, back, hfront, hback, hall, hjoined⟩
        · exact absurd rfl hfront
        obtain ⟨rfl, rfl⟩ := List.cons_eq_cons.1 hall
        simp at hjoined
      | cons b before =>
        obtain ⟨rfl, hbefore⟩ := List.cons_eq_cons.1 h
        rw [exists_front_cons_iff, openAfter_cons, ← hrest]
        exact ih _ hbefore

theorem divides_pieces (cs : List Char) : Divides cs (pieces false cs) where
  joined := intercalate_pieces false cs
  places before after h := by rw [← openAfter_eq_self_iff, pieces_places false h]

/-! ## Names and values -/

/-- A piece gives an attribute if it has an equals sign and something in front of the first one: that
is the name, and the rest is the value, both without the blanks around them. -/
def Gives (piece : List Char) (a : Attribute) : Prop :=
  ∃ before after, piece = before ++ '=' :: after ∧ '=' ∉ before ∧
    Text.strip before = a.name.toList ∧ a.name ≠ "" ∧ Text.strip after = a.value.raw.toList

/-- What pieces give, in their order; some give nothing. -/
inductive GivenBy : List (List Char) → List Attribute → Prop
  | nil : GivenBy [] []
  | gives {piece : List Char} {pieces : List (List Char)} {a : Attribute} {given : List Attribute}
      (here : Gives piece a) (rest : GivenBy pieces given) :
      GivenBy (piece :: pieces) (a :: given)
  | nothing {piece : List Char} {pieces : List (List Char)} {given : List Attribute}
      (none : ∀ a, ¬ Gives piece a) (rest : GivenBy pieces given) : GivenBy (piece :: pieces) given

variable {piece : List Char} {a b : Attribute} {given pairs : List Attribute}

/-- The first equals sign of a piece is that of what is left without blanks around it. -/
theorem exists_cut_of_cut_strip {name value : List Char}
    (h : Text.cutChars (· == '=') (Text.strip piece) = some (name, value)) :
    ∃ before after, Text.cutChars (· == '=') piece = some (before, after) ∧
      Text.strip before = Text.strip name ∧ Text.strip after = Text.strip value := by
  obtain ⟨front, back, hfront, hback, hpiece⟩ := Text.exists_blanks_around piece
  obtain ⟨hstrip, hname⟩ := Text.cutChars_eq_some_iff.1 h
  refine ⟨front ++ name, value ++ back, ?_, Text.strip_blanks_append hfront name,
    Text.strip_append_blanks hback value⟩
  rw [Text.cutChars_eq_some_iff, List.mem_append, not_or]
  refine ⟨?_, hfront.not_mem rfl, hname⟩
  rw [hstrip] at hpiece
  simpa using hpiece

/-- Taking the blanks around a piece off leaves its first equals sign and, but for blanks, what
stands on either side. -/
theorem exists_cut_strip_of_cut (h : Text.cutChars (· == '=') piece = some (before, after)) :
    ∃ name value, Text.cutChars (· == '=') (Text.strip piece) = some (name, value) ∧
      Text.strip before = Text.strip name ∧ Text.strip after = Text.strip value := by
  obtain ⟨front, back, hfront, hback, hpiece⟩ := Text.exists_blanks_around piece
  have hmem : '=' ∈ Text.strip piece := by
    have : '=' ∈ front ++ Text.strip piece ++ back := by
      rw [← hpiece, (Text.cutChars_eq_some_iff.1 h).1]
      simp
    have hnone : '=' ∉ front ∧ '=' ∉ back := ⟨hfront.not_mem rfl, hback.not_mem rfl⟩
    simpa [hnone] using this
  obtain ⟨name, value, hstrip, hname⟩ := List.eq_append_cons_of_mem hmem
  have hcut := Text.cutChars_eq_some_iff.2 ⟨hstrip, hname⟩
  obtain ⟨before', after', hcut', hbefore, hafter⟩ := exists_cut_of_cut_strip hcut
  obtain ⟨rfl, rfl⟩ : before = before' ∧ after = after' := by simpa [h] using hcut'
  exact ⟨name, value, hcut, hbefore, hafter⟩

/-- What is read from a piece, by its first equals sign and without the blanks around it. -/
theorem pair?_eq_some_iff_cut_strip : pair? piece = some a ↔
    ∃ name value, Text.cutChars (· == '=') (Text.strip piece) = some (name, value) ∧
      Text.strip name = a.name.toList ∧ a.name ≠ "" ∧ Text.strip value = a.value.raw.toList := by
  simp only [pair?, bind, Option.bind_eq_some_iff, Prod.exists]
  refine exists_congr fun name => exists_congr fun value => and_congr_right fun _ => ?_
  split_ifs with hempty
  · constructor
    · rintro ⟨⟩
    · rintro ⟨hname, hne, _⟩
      rw [hname, List.isEmpty_iff, String.toList_eq_nil_iff] at hempty
      exact absurd hempty hne
  · constructor
    · rintro ⟨⟩
      exact ⟨by simp, by simpa using hempty, by simp⟩
    · rintro ⟨hname, _, hvalue⟩
      simp [hname, hvalue]

/-- What is read of a piece is what the piece gives. -/
theorem pair?_eq_some_iff : pair? piece = some a ↔ Gives piece a := by
  rw [pair?_eq_some_iff_cut_strip]
  constructor
  · rintro ⟨name, value, hcut, hname, hne, hvalue⟩
    obtain ⟨before, after, hcut, hbefore, hafter⟩ := exists_cut_of_cut_strip hcut
    obtain ⟨hpiece, hfirst⟩ := Text.cutChars_eq_some_iff.1 hcut
    exact ⟨before, after, hpiece, hfirst, hbefore.trans hname, hne, hafter.trans hvalue⟩
  · rintro ⟨before, after, hpiece, hfirst, hname, hne, hvalue⟩
    obtain ⟨name, value, hcut, hbefore, hafter⟩ :=
      exists_cut_strip_of_cut (Text.cutChars_eq_some_iff.2 ⟨hpiece, hfirst⟩)
    exact ⟨name, value, hcut, hbefore ▸ hname, hne, hafter ▸ hvalue⟩

theorem givenBy_filterMap (pieces : List (List Char)) : GivenBy pieces (pieces.filterMap pair?) := by
  induction pieces with
  | nil => exact .nil
  | cons piece pieces ih =>
    rw [List.filterMap_cons]
    cases hpair : pair? piece with
    | none => exact .nothing (fun a ha => by simp [pair?_eq_some_iff.2 ha] at hpair) ih
    | some a => exact .gives (pair?_eq_some_iff.1 hpair) ih

/-! ## One value for each name -/

/-- The pairs are one for each name that is given, at the place of the first attribute with that name
and with the value of the last. -/
structure Gathers (given pairs : List Attribute) : Prop where
  names : ∀ name, name ∈ pairs.map (·.name) ↔ name ∈ given.map (·.name)
  places : (pairs.map (·.name)).Pairwise fun m n =>
    (given.map (·.name)).idxOf m < (given.map (·.name)).idxOf n
  values : ∀ a ∈ pairs, ∃ before after, given = before ++ a :: after ∧ ∀ b ∈ after, b.name ≠ a.name

variable {name : String} {value : Value}

/-- A new name comes last. -/
theorem put_of_not_mem (h : name ∉ pairs.map (·.name)) :
    put name value pairs = pairs ++ [⟨name, value⟩] := by
  induction pairs with
  | nil => rfl
  | cons a rest ih =>
    obtain ⟨ha, hrest⟩ := List.ne_and_not_mem_of_not_mem_cons h
    rw [put, if_neg (by simpa using Ne.symm ha), ih hrest]
    rfl

/-- A name that is there stays where it is. -/
theorem names_put_of_mem (h : name ∈ pairs.map (·.name)) :
    (put name value pairs).map (·.name) = pairs.map (·.name) := by
  induction pairs with
  | nil => cases h
  | cons a rest ih =>
    rw [put]
    split_ifs with ha
    · rw [List.map_cons, List.map_cons, eq_of_beq ha]
    · have hrest : name ∈ rest.map (·.name) :=
        (List.mem_cons.1 h).resolve_left fun heq => ha (by simp [heq])
      rw [List.map_cons, List.map_cons, ih hrest]

/-- With distinct names nothing else keeps a name that gets a value. -/
theorem mem_put (distinct : (pairs.map (·.name)).Nodup) (h : a ∈ put name value pairs) :
    a = ⟨name, value⟩ ∨ a ∈ pairs ∧ a.name ≠ name := by
  induction pairs with
  | nil => exact .inl (List.mem_singleton.1 h)
  | cons b rest ih =>
    obtain ⟨hb, hrest⟩ := List.nodup_cons.1 distinct
    rw [put] at h
    split_ifs at h with hname
    · refine (List.mem_cons.1 h).imp_right fun ha => ⟨List.mem_cons_of_mem _ ha, ?_⟩
      intro heq
      exact hb (List.mem_map.2 ⟨a, ha, heq.trans (eq_of_beq hname).symm⟩)
    · rcases List.mem_cons.1 h with rfl | ha
      · exact .inr ⟨List.mem_cons_self, by simpa using hname⟩
      · exact (ih hrest ha).imp_right fun hkept => ⟨List.mem_cons_of_mem _ hkept.1, hkept.2⟩

theorem Gathers.distinct (h : Gathers given pairs) : (pairs.map (·.name)).Nodup :=
  h.places.imp fun {m n} hlt (heq : m = n) => absurd hlt (heq ▸ Nat.lt_irrefl _)

/-- One more attribute is given. -/
theorem Gathers.put (h : Gathers given pairs) (a : Attribute) :
    Gathers (given ++ [a]) (put a.name a.value pairs) := by
  have hkept : ∀ {n}, n ∈ pairs.map (·.name) →
      ((given ++ [a]).map (·.name)).idxOf n = (given.map (·.name)).idxOf n := by
    intro n hn
    rw [List.map_append, List.idxOf_append_of_mem ((h.names n).1 hn)]
  have hplaces : (pairs.map (·.name)).Pairwise fun m n =>
      ((given ++ [a]).map (·.name)).idxOf m < ((given ++ [a]).map (·.name)).idxOf n :=
    h.places.imp_of_mem fun hm hn hlt => by rwa [hkept hm, hkept hn]
  have hvalues : ∀ b ∈ Attributes.put a.name a.value pairs, ∃ before after,
      given ++ [a] = before ++ b :: after ∧ ∀ c ∈ after, c.name ≠ b.name := by
    intro b hb
    rcases mem_put h.distinct hb with rfl | ⟨hb, hne⟩
    · exact ⟨given, [], rfl, by simp⟩
    · obtain ⟨before, after, rfl, hlast⟩ := h.values b hb
      refine ⟨before, after ++ [a], by simp, fun c hc => ?_⟩
      rcases List.mem_append.1 hc with hc | hc
      · exact hlast c hc
      · exact List.mem_singleton.1 hc ▸ Ne.symm hne
  by_cases hmem : a.name ∈ pairs.map (·.name)
  · refine ⟨fun n => ?_, by rwa [names_put_of_mem hmem], hvalues⟩
    have ha := (h.names a.name).1 hmem
    rw [names_put_of_mem hmem, h.names, List.map_append, List.mem_append, List.map_singleton,
      List.mem_singleton]
    exact ⟨.inl, fun hn => hn.elim id fun heq => heq ▸ ha⟩
  · have hnames : (Attributes.put a.name a.value pairs).map (·.name) =
        pairs.map (·.name) ++ [a.name] := by rw [put_of_not_mem hmem, List.map_append]; rfl
    refine ⟨fun n => ?_, ?_, hvalues⟩
    · rw [hnames, List.map_append, List.mem_append, List.mem_append, h.names]
      rfl
    · rw [hnames, List.pairwise_append]
      refine ⟨hplaces, List.pairwise_singleton _ _, fun m hm n hn => ?_⟩
      have hnew : a.name ∉ given.map (·.name) := fun ha => hmem ((h.names a.name).2 ha)
      rw [List.mem_singleton.1 hn, hkept hm, List.map_append,
        List.idxOf_append_of_notMem hnew]
      exact Nat.lt_of_lt_of_le (List.idxOf_lt_length_of_mem ((h.names m).1 hm)) (Nat.le_add_right _ _)

/-- All that is given, gathered one by one. -/
theorem gathers_foldl (given : List Attribute) :
    Gathers given (given.foldl (fun a p => a.insert p.name p.value) ({} : Attributes)).pairs := by
  induction given using List.reverseRecOn with
  | nil => exact ⟨fun _ => Iff.rfl, List.Pairwise.nil, fun _ h => absurd h List.not_mem_nil⟩
  | append_singleton given a ih =>
    rw [List.foldl_append]
    exact ih.put a

/-- Attributes with distinct names are all kept as they are. -/
theorem foldl_insert_of_distinct (distinct : (given.map (·.name)).Nodup) :
    given.foldl (fun a p => a.insert p.name p.value) ({} : Attributes) = ⟨given⟩ := by
  induction given using List.reverseRecOn with
  | nil => rfl
  | append_singleton given a ih =>
    rw [List.map_append, List.nodup_append] at distinct
    obtain ⟨hgiven, -, hnew⟩ := distinct
    have ha : a.name ∉ given.map (·.name) := fun hmem =>
      hnew _ hmem _ (List.mem_singleton_self _) rfl
    rw [List.foldl_append, ih hgiven, List.foldl_cons, List.foldl_nil, insert, put_of_not_mem ha]

/-- What a list gives that is read. -/
theorem read_gathers (body : String) :
    ∃ pieces given, Divides body.toList pieces ∧ GivenBy pieces given ∧
      Gathers given (read body).pairs :=
  ⟨pieces false body.toList, _, divides_pieces _, givenBy_filterMap _, gathers_foldl _⟩

/-- Each attribute that is given comes from one of the pieces. -/
theorem exists_gives_of_mem {texts : List (List Char)} (h : GivenBy texts given) (ha : a ∈ given) :
    ∃ piece ∈ texts, Gives piece a := by
  induction h with
  | nil => cases ha
  | gives here _ ih =>
    rcases List.mem_cons.1 ha with rfl | ha
    · exact ⟨_, List.mem_cons_self, here⟩
    · obtain ⟨piece, hmem, hgives⟩ := ih ha
      exact ⟨piece, List.mem_cons_of_mem _ hmem, hgives⟩
  | nothing _ _ ih =>
    obtain ⟨piece, hmem, hgives⟩ := ih ha
    exact ⟨piece, List.mem_cons_of_mem _ hmem, hgives⟩

/-! ## Lists as they are written -/

/-- An attribute as it is written, with blanks around its name and its value. -/
structure Spelling extends Attribute where
  beforeName : List Char := []
  afterName : List Char := []
  beforeValue : List Char := []
  afterValue : List Char := []

namespace Spelling

def left (w : Spelling) : List Char := w.beforeName ++ w.name.toList ++ w.afterName

def right (w : Spelling) : List Char :=
  w.beforeValue ++ w.value.raw.toList ++ w.afterValue

def text (w : Spelling) : List Char := w.left ++ '=' :: w.right

/-- What a list can hold: a name without anything that has a meaning there, a value with paired quotes
around all its commas, neither with blanks at an end, and nothing but blanks around them. -/
structure Sound (w : Spelling) : Prop where
  blanks : ∀ cs ∈ [w.beforeName, w.afterName, w.beforeValue, w.afterValue], Text.Blanks cs
  name_ne : w.name ≠ ""
  name_trimmed : Text.trim w.name = w.name
  name_plain : '=' ∉ w.name.toList ∧ ',' ∉ w.name.toList ∧ '"' ∉ w.name.toList
  value_trimmed : Text.trim w.value.raw = w.value.raw
  value_paired : Even (w.value.raw.toList.count '"')
  value_commas : ∀ before after, w.value.raw.toList = before ++ ',' :: after →
    ¬ Even (before.count '"')

end Spelling

theorem whole_nil (quoted : Bool) : Whole quoted [] := fun before after h => by simp at h

/-- A comma needs open quotes in front of it, and a quote turns them over for what follows. -/
theorem whole_cons_iff {c : Char} : Whole quoted (c :: cs) ↔
    (c = ',' → quoted = true) ∧ Whole (if c == '"' then !quoted else quoted) cs := by
  refine ⟨fun h => ⟨fun hc => h [] cs (hc ▸ rfl), fun before after heq => ?_⟩, ?_⟩
  · exact h (c :: before) after (heq ▸ rfl)
  · rintro ⟨hc, hcs⟩ before after heq
    cases before with
    | nil => exact hc (List.cons_eq_cons.1 heq).1
    | cons b before =>
      obtain ⟨rfl, hrest⟩ := List.cons_eq_cons.1 heq
      exact hcs before after hrest

instance decidableWhole : (quoted : Bool) → (cs : List Char) → Decidable (Whole quoted cs)
  | quoted, [] => isTrue (whole_nil quoted)
  | quoted, c :: cs =>
    have := decidableWhole (if c == '"' then !quoted else quoted) cs
    decidable_of_iff _ whole_cons_iff.symm

theorem whole_append (hcs : Whole quoted cs) (hds : Whole (openAfter quoted cs) ds) :
    Whole quoted (cs ++ ds) := by
  induction cs generalizing quoted with
  | nil => exact hds
  | cons c cs ih =>
    obtain ⟨hc, hrest⟩ := whole_cons_iff.1 hcs
    exact whole_cons_iff.2 ⟨hc, ih hrest hds⟩

theorem whole_of_not_mem (h : ',' ∉ cs) : Whole quoted cs := fun before after heq =>
  absurd (heq ▸ by simp) h

theorem openAfter_of_not_mem (h : '"' ∉ cs) : openAfter quoted cs = quoted :=
  openAfter_eq_self_iff.2 (by simp [List.count_eq_zero.2 h])

theorem whole_false_iff : Whole false cs ↔
    ∀ before after, cs = before ++ ',' :: after → ¬ Even (before.count '"') := by
  refine forall_congr' fun before => forall_congr' fun after => imp_congr_right fun _ => ?_
  rw [← @openAfter_eq_self_iff false, Bool.not_eq_false]

/-- A whole text is one piece with what follows it up to the next comma outside quotes. -/
theorem pieces_append (h : Whole quoted cs) (rest : List Char) :
    ∃ piece more, pieces (openAfter quoted cs) rest = piece :: more ∧
      pieces quoted (cs ++ rest) = (cs ++ piece) :: more := by
  induction cs generalizing quoted with
  | nil =>
    obtain ⟨piece, more, hrest⟩ := List.exists_cons_of_ne_nil (pieces_ne_nil quoted rest)
    exact ⟨piece, more, hrest, hrest⟩
  | cons c cs ih =>
    obtain ⟨hc, hcs⟩ := whole_cons_iff.1 h
    obtain ⟨piece, more, hrest, hpieces⟩ := ih hcs
    obtain ⟨piece', more', hpieces', hall⟩ := pieces_cons hc (cs ++ rest)
    obtain ⟨rfl, rfl⟩ := List.cons_eq_cons.1 (hpieces'.symm.trans hpieces)
    exact ⟨piece, _, hrest, hall⟩

/-- Whole texts that are joined are the pieces. -/
theorem pieces_intercalate {texts : List (List Char)} (hne : texts ≠ [])
    (h : ∀ text ∈ texts, Whole false text ∧ openAfter false text = false) :
    pieces false ([','].intercalate texts) = texts := by
  induction texts with
  | nil => exact absurd rfl hne
  | cons text texts ih =>
    obtain ⟨⟨hwhole, hclosed⟩, htexts⟩ := List.forall_mem_cons.1 h
    cases texts with
    | nil =>
      obtain ⟨piece, more, hrest, hpieces⟩ := pieces_append hwhole []
      rw [hclosed] at hrest
      obtain ⟨rfl, rfl⟩ : [] = piece ∧ [] = more := List.cons_eq_cons.1 hrest
      simpa using hpieces
    | cons next texts =>
      obtain ⟨piece, more, hrest, hpieces⟩ :=
        pieces_append hwhole (',' :: [','].intercalate (next :: texts))
      rw [hclosed, pieces_comma, ih (List.cons_ne_nil _ _) htexts] at hrest
      obtain ⟨rfl, rfl⟩ := List.cons_eq_cons.1 hrest
      simpa [List.intercalate_cons_cons] using hpieces

namespace Spelling

variable {w : Spelling}

/-- In front of the equals sign there is nothing that has a meaning in a list. -/
theorem Sound.not_mem_left (h : w.Sound) {c : Char} (hc : c = '=' ∨ c = ',' ∨ c = '"') :
    c ∉ w.left := by
  have hname : c ∉ w.name.toList := by
    obtain ⟨hequals, hcomma, hquote⟩ := h.name_plain
    rcases hc with rfl | rfl | rfl
    · exact hequals
    · exact hcomma
    · exact hquote
  have hblank : Text.isBlank c = false := by
    rcases hc with rfl | rfl | rfl <;> rfl
  simp only [left, List.mem_append, not_or]
  exact ⟨⟨(h.blanks _ (by simp)).not_mem hblank, hname⟩, (h.blanks _ (by simp)).not_mem hblank⟩

/-- What stands right of the equals sign has no comma outside quotes and leaves none of them open.
-/
theorem Sound.whole_right (h : w.Sound) : Whole false w.right ∧ openAfter false w.right = false := by
  have hvalue : openAfter false w.value.raw.toList = false :=
    openAfter_eq_self_iff.2 h.value_paired
  have hplain : ∀ cs ∈ [w.beforeValue, w.afterValue], ',' ∉ cs ∧ '"' ∉ cs := fun cs hcs =>
    have hblanks := h.blanks cs (by simp at hcs ⊢; tauto)
    ⟨hblanks.not_mem rfl, hblanks.not_mem rfl⟩
  obtain ⟨hfront, hback⟩ : (',' ∉ w.beforeValue ∧ '"' ∉ w.beforeValue) ∧
      ',' ∉ w.afterValue ∧ '"' ∉ w.afterValue := by simpa using hplain
  have hopen : openAfter false w.beforeValue = false := openAfter_of_not_mem hfront.2
  refine ⟨whole_append (whole_append (whole_of_not_mem hfront.1) ?_) (whole_of_not_mem hback.1), ?_⟩
  · rw [hopen]
    exact whole_false_iff.2 h.value_commas
  · rw [right, openAfter_append, openAfter_append, hopen, hvalue, openAfter_of_not_mem hback.2]

theorem Sound.whole (h : w.Sound) : Whole false w.text ∧ openAfter false w.text = false := by
  have hleft : openAfter false w.left = false := openAfter_of_not_mem (h.not_mem_left (by simp))
  obtain ⟨hwhole, hclosed⟩ := h.whole_right
  refine ⟨whole_append (whole_of_not_mem (h.not_mem_left (by simp))) ?_, ?_⟩
  · rw [hleft, whole_cons_iff]
    exact ⟨by decide, hwhole⟩
  · rw [text, openAfter_append, hleft]
    exact hclosed

theorem strip_of_trimmed {s : String} (h : Text.trim s = s) : Text.strip s.toList = s.toList := by
  rw [← Text.trim_toList, h]

theorem Sound.gives (h : w.Sound) : Gives w.text w.toAttribute := by
  refine ⟨w.left, w.right, rfl, h.not_mem_left (by simp), ?_, h.name_ne, ?_⟩
  · rw [left, Text.strip_blanks_around (h.blanks _ (by simp)) (h.blanks _ (by simp)),
      strip_of_trimmed h.name_trimmed]
  · rw [right, Text.strip_blanks_around (h.blanks _ (by simp)) (h.blanks _ (by simp)),
      strip_of_trimmed h.value_trimmed]

end Spelling

/-- What is written is read. -/
theorem read_written {written : List Spelling} (sound : ∀ w ∈ written, w.Sound)
    (distinct : (written.map (·.name)).Nodup) :
    read (String.ofList ([','].intercalate (written.map Spelling.text))) =
      ⟨written.map (·.toAttribute)⟩ := by
  cases written with
  | nil => rfl
  | cons w written =>
    have hwhole : ∀ text ∈ (w :: written).map Spelling.text,
        Whole false text ∧ openAfter false text = false := by
      intro text htext
      obtain ⟨v, hv, rfl⟩ := List.mem_map.1 htext
      exact (sound v hv).whole
    have hpairs : ((w :: written).map Spelling.text).filterMap pair? =
        (w :: written).map (·.toAttribute) := by
      rw [List.filterMap_map, ← List.filterMap_eq_map]
      refine List.filterMap_congr fun v hv => ?_
      exact pair?_eq_some_iff.2 (sound v hv).gives
    rw [read, String.toList_ofList, pieces_intercalate (by simp) hwhole, hpairs]
    exact foldl_insert_of_distinct (by rwa [List.map_map])

/-- A list that is written from attributes with distinct names is read as these attributes, with any
blanks around them. Whatever the body of a list is, it is divided at the commas with an even number of
quotes in front of them, and of what the pieces give each name is kept once, without blanks at its
ends, at the place where it comes first and with the value that comes last. -/
theorem read_exact :
    (∀ written : List Spelling, (∀ w ∈ written, w.Sound) → (written.map (·.name)).Nodup →
      read (String.ofList ([','].intercalate (written.map Spelling.text))) =
        ⟨written.map (·.toAttribute)⟩) ∧
    ∀ body, ∃ pieces given, Divides body.toList pieces ∧ GivenBy pieces given ∧
      Gathers given (read body).pairs ∧ ((read body).pairs.map (·.name)).Nodup ∧
      ∀ a ∈ (read body).pairs, a.name ≠ "" ∧ Text.trim a.name = a.name := by
  refine ⟨fun written sound distinct => read_written sound distinct, fun body => ?_⟩
  obtain ⟨pieces, given, hdivides, hgiven, hgathers⟩ := read_gathers body
  refine ⟨pieces, given, hdivides, hgiven, hgathers, hgathers.distinct, fun a ha => ?_⟩
  obtain ⟨before, after, rfl, -⟩ := hgathers.values a ha
  obtain ⟨piece, -, before', after', -, -, hname, hne, -⟩ :=
    exists_gives_of_mem hgiven (List.mem_append_right before List.mem_cons_self)
  refine ⟨hne, ?_⟩
  rw [Text.trim, ← hname, Text.strip_strip, hname, String.ofList_toList]

/-- A list with a comma and an equals sign in values, and blanks around some of them. -/
def variantWritten : List Spelling :=
  [{ name := "BANDWIDTH", value := ⟨"1280000"⟩ },
    { name := "CODECS", value := ⟨"\"avc1.4d401f,mp4a.40.2\""⟩,
      beforeName := [' '], afterValue := [' ', '\t'] },
    { name := "NAME", value := ⟨"é=\"a,b\"\"c\""⟩, afterName := ['\u00a0'], beforeValue := [' '] }]

/-- A list with quoted commas, blanks and a quoted equals sign reads back as its attributes. -/
theorem read_exact_of_variant :
    (∀ w ∈ variantWritten, w.Sound) ∧ (variantWritten.map (·.name)).Nodup ∧
      read "BANDWIDTH=1280000, CODECS=\"avc1.4d401f,mp4a.40.2\" \t,NAME\u00a0= é=\"a,b\"\"c\"" =
        ⟨variantWritten.map (·.toAttribute)⟩ := by
  have hsound : ∀ w ∈ variantWritten, w.Sound := by
    have hplain : ∀ w ∈ variantWritten,
        (∀ cs ∈ [w.beforeName, w.afterName, w.beforeValue, w.afterValue], Text.Blanks cs) ∧
          w.name ≠ "" ∧ Text.trim w.name = w.name ∧
          ('=' ∉ w.name.toList ∧ ',' ∉ w.name.toList ∧ '"' ∉ w.name.toList) ∧
          Text.trim w.value.raw = w.value.raw ∧ Even (w.value.raw.toList.count '"') ∧
          Whole false w.value.raw.toList := by decide
    intro w hw
    obtain ⟨hblanks, hne, hname, hchars, hvalue, hpaired, hwhole⟩ := hplain w hw
    exact ⟨hblanks, hne, hname, hchars, hvalue, hpaired, whole_false_iff.1 hwhole⟩
  have hdistinct : (variantWritten.map (·.name)).Nodup := by decide
  exact ⟨hsound, hdistinct, read_exact.1 variantWritten hsound hdistinct⟩

end AdaptiveHls.Attributes
