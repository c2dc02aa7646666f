import Mathlib.Data.List.Forall2
import ScummKit.Proofs.Project.Replacing
import ScummKit.Proofs.Script.Marks
import ScummKit.Proofs.Script.Scans

/-!
# Fields of objects as they are written

The directive of an object's data is a list of fields, each a key and a value. When it is known how
every field is written, the directive is read to the end of the list and notes the fields in their
order (`ends_objectData`).
-/

namespace ScummKit.Script

open Grammar Lexicon Statement Build List

/-! ### Fields as they are written -/

/-- A field of an object's data: its key, how its value is written and what is noted of it. -/
structure Entry where
  key : String
  written : List Char
  value : Token

namespace Entry

def text (e : Entry) : List Char := e.key.toList ++ ' ' :: e.written

def noted (e : Entry) : String × Token := (e.key, e.value)

def Fills (e : Entry) (t : Token) : Prop :=
  ∃ c : Capture, t = c.toToken ∧ Build.textUnder c "key" = e.key ∧ (c.find? "val").getD (.code []) = e.value

end Entry

def fieldList (es : List Entry) : List Char := es.flatMap fun e => ',' :: ' ' :: e.text

def fieldKeys : List String :=
  ["id", "unknown", "x-pos", "y-pos", "parent-state", "width", "parent", "walk-x", "walk-y", "height", "actor-dir", "name"]

def fieldValue (legacy : Bool) (key : String) : Syn :=
  if key = "parent-state" then .named "val" (.first [.literal "0", .literal "1"])
  else if key = "name" then Lexicon.textUnder legacy "val"
  else constant "val"

theorem objectFields_eq (legacy : Bool) : objectFields legacy
    = fieldKeys.map fun key => .seq [.named "key" (.literal key), fieldValue legacy key] := rfl

theorem key_cases {key : String} (h : key ∈ fieldKeys) : (∃ c cs, key.toList = c :: cs ∧ isBlank c = false) ∧
    ∃ before after, fieldKeys = before ++ key :: after ∧ ∀ k ∈ before, ' ' ∉ k.toList ∧ ¬k.toList <+: key.toList := by
  have hsolid : ∀ k ∈ fieldKeys, (k.toList.head?.map isBlank) = some false ∧ ' ' ∉ k.toList := by decide
  have horder : fieldKeys.Pairwise fun k key => ¬k.toList <+: key.toList := by decide
  constructor
  · have hhead := (hsolid key h).1
    cases hkey : key.toList with
    | nil => rw [hkey] at hhead; cases hhead
    | cons c cs => rw [hkey] at hhead; exact ⟨c, cs, rfl, Option.some.inj hhead⟩
  · obtain ⟨before, after, heq⟩ := append_of_mem h
    refine ⟨before, after, heq, fun k hk => ⟨(hsolid k (heq ▸ mem_append_left _ hk)).2, ?_⟩⟩
    rw [heq] at horder
    exact (pairwise_append.1 horder).2.2 k hk key mem_cons_self

section Entries

variable {v : Version} {legacy : Bool} {text : Array Char} {fuel pos : Nat} {skip : Bool}
variable {u : Assembler} {e : Entry} {es : List Entry} {after : List Char}
variable {cs : List Char} {name : List UInt8} {c : Char}

abbrev objectField (legacy : Bool) : Syn := .group (.first (objectFields legacy))

/-- A field can be read from wherever it stands in front of `after`. -/
def Readable (v : Version) (legacy : Bool) (text : Array Char) (u : Assembler) (fuel : Nat) (e : Entry)
    (after : List Char) : Prop :=
  ∀ pos, At text true pos (e.text ++ after) → ∃ t, e.Fills t ∧ ∀ skip,
    Scans (read (rules v legacy) text fuel (objectField legacy) true skip pos) u (place text after, .own (.single t))

/-- The value of a field is filed under a name of its own, unless it is an empty text. -/
def Carries (e : Entry) (more : Capture) : Prop :=
  more.names = [("val", e.value)] ∨ more.names = [] ∧ e.value = .code []

theorem fills_of_carries {more : Capture} (h : Carries e more) :
    e.Fills (⟨[.word e.key], [("key", .word e.key)]⟩ ++ more : Capture).toToken := by
  refine ⟨_, rfl, ?_⟩
  change (Option.bind (Table.find? "key" (more.names.foldl _ _)) _).getD "" = _ ∧
    (Table.find? "val" (more.names.foldl _ _)).getD _ = _
  rcases h with h | ⟨h, hvalue⟩
  · rw [h]
    exact ⟨rfl, rfl⟩
  · rw [h, hvalue]
    exact ⟨rfl, rfl⟩

theorem seat_first {items : List Syn} : seat text (.first items) skip pos = pos := by
  rw [seat, Pattern.skips, Bool.and_false]
  rfl

theorem readable_of_value (hkey : e.key ∈ fieldKeys)
    (hvalue : ' ' :: (e.written ++ after) <:+ text.toList → ∃ more, Carries e more ∧
    Scans (scan v legacy text (fuel + 2) (fieldValue legacy e.key) true
    (place text (' ' :: (e.written ++ after)))) u (place text after, .own more)) :
    Readable v legacy text u (fuel + 5) e after := by
  intro pos hpos
  have htext : e.text ++ after = e.key.toList ++ ' ' :: (e.written ++ after) := by
    rw [Entry.text, append_assoc, cons_append]
  rw [htext] at hpos
  obtain ⟨more, hcarries, hmore⟩ := hvalue (suffix_of_append hpos.rest)
  refine ⟨_, fills_of_carries hcarries, fun skip => @scans_group _ _ _ _ _ _ _ _ _ _ (.own _) _ ?_⟩
  obtain ⟨-, before, behind, hsplit, hbefore⟩ := key_cases hkey
  rw [objectFields_eq, hsplit, map_append, seat_first]
  refine ends_first (fun p hp => ?_) (ends_seq hpos
    (scans_named (scans_literal hpos.again) scans_pure) (ends_items hmore scans_pure)) nofun
  obtain ⟨k, hk, rfl⟩ := mem_map.1 hp
  obtain ⟨hspace, hprefix⟩ := hbefore k hk
  exact lacks_seq hpos (lacks_literal hpos.again (mt (Text.prefix_append_sep hspace).1 hprefix)).stop

/-! ### Values -/

theorem toString_eq_digits (n : Nat) : toString n = String.ofList (digits n) := Nat.toString_eq_ofList_toDigits

theorem digits_cases (n : Nat) : ∃ d ds, digits n = d :: ds ∧ d.isDigit = true ∧ ds.all Char.isDigit := by
  have hdigits : ∀ d ∈ digits n, d.isDigit = true := fun d hd =>
    Nat.isDigit_of_mem_toDigits (by decide) (by decide) hd
  cases hd : digits n with
  | nil => exact absurd hd Nat.toDigits_ne_nil
  | cons d ds =>
    rw [hd, forall_mem_cons] at hdigits
    exact ⟨d, ds, rfl, hdigits.1, all_eq_true.2 hdigits.2⟩

theorem not_isBlank_of_isDigit (h : c.isDigit = true) : isBlank c = false := by
  cases hb : isBlank c with
  | false => rfl
  | true =>
    simp only [isBlank, Bool.or_eq_true, decide_eq_true_eq] at hb
    rcases hb with ((rfl | rfl) | rfl) | rfl <;> exact absurd h (by decide)

def numberEntry (key : String) (n : Nat) : Entry := ⟨key, digits n, .word (toString n)⟩

theorem readable_number {key : String} {n : Nat} (hkey : key ∈ fieldKeys)
    (hstate : key ≠ "parent-state") (hname : key ≠ "name") (hc : c.isDigit = false) :
    Readable v legacy text u (fuel + 6) (numberEntry key n) (c :: cs) := by
  refine readable_of_value hkey fun h =>
    ⟨⟨[.word (toString n)], [("val", .word (toString n))]⟩, .inl rfl, ?_⟩
  obtain ⟨d, ds, hdigits, hd, hds⟩ := digits_cases n
  rw [numberEntry, hdigits] at h ⊢
  rw [fieldValue, if_neg hstate, if_neg hname, toString_eq_digits, hdigits]
  have hread := at_space h (not_isBlank_of_isDigit hd)
  refine @scans_named _ _ _ _ _ _ _ _ _ _ (.own (.single (.word (String.ofList (d :: ds))))) _ _ _ ?_ scans_pure
  exact @ends_first _ _ _ _ _ _ _ _ _ _ _ _ [] _ nofun (scans_word hread (by simp [hd]) hds hc) nofun

def stateEntry (s : String) : Entry := ⟨"parent-state", s.toList, .word s⟩

theorem readable_state {s : String} (hs : s = "0" ∨ s = "1") : Readable v legacy text u (fuel + 6) (stateEntry s) after := by
  have hkey : "parent-state" ∈ fieldKeys := by decide
  refine readable_of_value hkey fun h =>
    ⟨⟨[.word s], [("val", .word s)]⟩, .inl rfl, ?_⟩
  refine @scans_named _ _ _ _ _ _ _ _ _ _ (.own (.single (.word s))) _ _ _ ?_ scans_pure
  have hread : At text true (place text (' ' :: (s.toList ++ after))) (s.toList ++ after) := by
    rcases hs with rfl | rfl <;> exact at_space h (by decide)
  rcases hs with rfl | rfl
  · exact @ends_first _ _ _ _ _ _ _ _ _ _ _ _ [] _ nofun (scans_literal hread) nofun
  · refine @ends_first _ _ _ _ _ _ _ _ _ _ _ _ [.literal "0"] _ (fun p hp => ?_) (scans_literal hread) nofun
    rw [mem_singleton.1 hp]
    exact lacks_literal hread (by simp)

def IsPlain (b : UInt8) : Prop := (Char.ofNat b.toNat).isAlphanum ∨ b = 32

def nameChars (name : List UInt8) : List Char := name.map fun b => Char.ofNat b.toNat

def nameEntry (name : List UInt8) : Entry := ⟨"name", '"' :: (nameChars name ++ ['"']), .code name⟩

theorem IsPlain.ne {b : UInt8} (h : IsPlain b) (hc : c.isAlphanum = false) (hspace : c ≠ ' ') : Char.ofNat b.toNat ≠ c := by
  rintro rfl
  rcases h with h | rfl
  · exact absurd h (by simp [hc])
  · exact hspace rfl

theorem charByte_ofNat (b : UInt8) : Escape.charByte (Char.ofNat b.toNat) = b := by
  have hsmall := b.toNat_lt
  have hvalid : b.toNat.isValidChar := .inl (by omega)
  have hnat : (Char.ofNat b.toNat).toNat = b.toNat := by
    rw [Char.ofNat, dif_pos hvalid]
    rfl
  rw [Escape.charByte, hnat, UInt8.ofNat_toNat]

section

variable (h : ∀ b ∈ name, IsPlain b)

include h

theorem current_nameChars : Escape.current (nameChars name) = .ok name := by
  induction name with
  | nil => rfl
  | cons b name ih =>
    obtain ⟨hb, hname⟩ := forall_mem_cons.1 h
    have hne : Char.ofNat b.toNat ≠ '\\' := hb.ne (by decide) (by decide)
    have hstep : Escape.current (nameChars (b :: name))
        = (do return Escape.charByte (Char.ofNat b.toNat) :: (← Escape.current (nameChars name))) := by
      rw [Escape.current.eq_def]
      split <;> simp_all [nameChars]
    rw [hstep, ih hname, charByte_ofNat]
    rfl

theorem legacy_nameChars : Escape.legacy (nameChars name) = .ok name := by
  rw [Escape.legacy]
  induction name with
  | nil => rfl
  | cons b name ih =>
    obtain ⟨hb, hname⟩ := forall_mem_cons.1 h
    have hne : Char.ofNat b.toNat ≠ '^' := hb.ne (by decide) (by decide)
    rw [nameChars, map_cons, Escape.legacyFrom, if_neg hne]
    rw [nameChars] at ih
    rw [ih hname, charByte_ofNat]
    rfl

theorem scans_quotedAction {site : Grammar.Site} :
    Scans (quotedAction legacy site (.single (.word (String.ofList ('"' :: (nameChars name ++ ['"']))))))
    u (.tokens [.code name]) := by
  have hunquoted : unquoted (String.ofList ('"' :: (nameChars name ++ ['"']))) = nameChars name := by
    simp [unquoted]
  have hescape : (if legacy then Escape.legacy (nameChars name) else Escape.current (nameChars name)) = .ok name := by
    split
    · exact legacy_nameChars h
    · exact current_nameChars h
  refine ends_of_gets fun m hm => ?_
  subst hm
  change Gets (lift (if legacy
    then Escape.legacy (unquoted (String.ofList ('"' :: (nameChars name ++ ['"']))))
    else Escape.current (unquoted (String.ofList ('"' :: (nameChars name ++ ['"']))))) >>= emit) m _ m
  rw [hunquoted, hescape]
  rfl

theorem scans_text (hsuffix : '"' :: (nameChars name ++ '"' :: c :: cs) <:+ text.toList) (hblank : isBlank c = false)
    (hquote : c ≠ '"') (hplus : c ≠ '+') : Scans (scan v legacy text (fuel + 7) (Lexicon.text legacy) false
    (place text ('"' :: (nameChars name ++ '"' :: c :: cs)))) u (place text (c :: cs), .own ⟨[.code name], []⟩) := by
  have hchars : ∀ d ∈ nameChars name, d ≠ '"' ∧ d ≠ '\\' ∧ d ≠ '\n' ∧ d ≠ '\r' := by
    intro d hd
    obtain ⟨b, hb, rfl⟩ := mem_map.1 hd
    have hne : ∀ c : Char, c.isAlphanum = false → c ≠ ' ' → Char.ofNat b.toNat ≠ c := fun c => (h b hb).ne
    exact ⟨hne _ (by decide) (by decide), hne _ (by decide) (by decide), hne _ (by decide) (by decide),
      hne _ (by decide) (by decide)⟩
  have hafter : c :: cs <:+ text.toList := by
    refine suffix_of_cons (c := '"') (suffix_of_append (s := '"' :: nameChars name) ?_)
    exact hsuffix
  refine ends_act (ends_seq (at_place hsuffix)
    (@ends_first _ _ _ _ _ _ _ _ _ _ _ _ [] _ nofun (ends_act (scans_quoted (at_solid hsuffix (by decide)) hquote hchars)
      (ends_perform (scans_quotedAction h) nofun)) nofun) (ends_items_nothing
        ?_ scans_pure)) (@ends_perform _ _ _ _ _ _ (.ok (.tokens [.code name])) ?_ nofun)
  · refine scans_opt_none (at_solid hafter hblank) rfl (Ends.stop (lacks_seq (at_place hafter) ?_))
    exact lacks_mark (at_place hafter) (by simpa using hplus.symm)
  · refine ends_of_gets fun m hm => ?_
    subst hm
    have hjoin : ∀ site, Gets (joinAction site ⟨[.code name], []⟩) m (.tokens [.code [name].flatten]) m :=
      fun _ => rfl
    rw [flatten_singleton] at hjoin
    exact hjoin _

theorem readable_name (hblank : isBlank c = false) (hquote : c ≠ '"') (hplus : c ≠ '+') :
    Readable v legacy text u (fuel + 13) (nameEntry name) (c :: cs) := by
  have hkey : "name" ∈ fieldKeys := by decide
  have hcarries : Carries (nameEntry name) ⟨[.code name], if name = [] then [] else [("val", .code name)]⟩ := by
    by_cases hname : name = []
    · subst hname
      exact .inr ⟨rfl, rfl⟩
    · rw [if_neg hname]
      exact .inl rfl
  refine readable_of_value hkey fun hsuffix => ⟨_, hcarries, ?_⟩
  have hwritten : ' ' :: ((nameEntry name).written ++ c :: cs)
      = ' ' :: '"' :: (nameChars name ++ '"' :: c :: cs) := by simp [nameEntry]
  rw [hwritten] at hsuffix ⊢
  have hread := at_space hsuffix (by decide)
  refine scans_named (ends_act (@scans_group _ _ _ _ _ _ _ _ _ _
    (.own ⟨[.code name], []⟩) _ ?_) (@ends_perform _ _ _ _ _ _ (.ok (.tokens [.code name])) scans_pure nofun)) ?_
  · rw [hread.seat rfl]
    exact scans_text h (suffix_of_cons hsuffix) hblank hquote hplus
  · cases name <;> exact scans_pure

end

/-! ### Lists of fields -/

theorem Entry.text_cases (hkey : e.key ∈ fieldKeys) : ∃ c cs, e.text = c :: cs ∧ isBlank c = false := by
  obtain ⟨⟨c, cs, hcs, hc⟩, -⟩ := key_cases hkey
  exact ⟨c, cs ++ ' ' :: e.written, by rw [Entry.text, hcs, cons_append], hc⟩

/-- Each of several fields can be read in front of those behind it. -/
def ReadableAll (v : Version) (legacy : Bool) (text : Array Char) (u : Assembler) (fuel : Nat)
    (after : List Char) : List Entry → Prop
  | [] => True
  | e :: es => e.key ∈ fieldKeys ∧ Readable v legacy text u fuel e (fieldList es ++ after) ∧
    ReadableAll v legacy text u fuel after es

theorem scans_nextField (hkey : e.key ∈ fieldKeys) (hread : Readable v legacy text u (fuel + 2) e after)
    (h : ',' :: ' ' :: (e.text ++ after) <:+ text.toList) : ∃ t, e.Fills t ∧ ∀ skip, Scans (scan v legacy text (fuel + 3)
    (.seq [mark ",", objectField legacy]) skip (place text (',' :: ' ' :: (e.text ++ after)))) u
    (place text after, .own ⟨[t], []⟩) := by
  have hspace : At text true (place text (' ' :: (e.text ++ after))) (e.text ++ after) := by
    obtain ⟨c, cs, htext, hc⟩ := Entry.text_cases hkey
    rw [htext] at h ⊢
    exact at_space (suffix_of_cons h) hc
  obtain ⟨t, hfills, hscans⟩ := hread _ hspace
  refine ⟨t, hfills, fun skip => ends_seq (at_solid h (by decide))
    (scans_mark (at_place h)) (ends_items (hscans true) scans_pure)⟩

theorem fieldList_cons_append : fieldList (e :: es) ++ after = ',' :: ' ' :: (e.text ++ (fieldList es ++ after)) := by
  rw [fieldList, fieldList]
  simp

theorem length_le_fieldList (es : List Entry) : es.length ≤ (fieldList es).length := by
  induction es with
  | nil => exact Nat.le_refl _
  | cons e es ih =>
    rw [← append_nil (fieldList (e :: es)), fieldList_cons_append]
    simp only [length_cons, length_append]
    omega

theorem scans_moreFields (hc : c ≠ ',') (hblank : isBlank c = false) (hread : ReadableAll v legacy text u (fuel + 2) (c :: cs) es)
    (h : fieldList es ++ c :: cs <:+ text.toList) {rounds : Nat} (hrounds : es.length ≤ rounds)
    (ts : List Token) : ∃ more, List.Forall₂ Entry.Fills es more ∧
    Scans (repeated (scan v legacy text (fuel + 3) (.seq [mark ",", objectField legacy])
    true) rounds (place text (fieldList es ++ c :: cs)) (.own ⟨ts, []⟩)) u (place text (c :: cs), .own ⟨ts ++ more, []⟩) := by
  induction es generalizing rounds ts with
  | nil =>
    have hlacks : Lacks (scan v legacy text (fuel + 3) (.seq [mark ",", objectField legacy])
        true (place text (c :: cs))) u :=
      lacks_seq (at_solid h hblank) (lacks_mark (at_place h) (by simpa using hc.symm))
    refine ⟨[], .nil, ?_⟩
    rw [append_nil]
    exact scans_repeated_stop hlacks
  | cons e es ih =>
    obtain ⟨hkey, he, hes⟩ := hread
    rw [fieldList_cons_append] at h ⊢
    obtain ⟨rounds, rfl⟩ : ∃ r, rounds = r + 1 := ⟨rounds - 1, by rw [length_cons] at hrounds; omega⟩
    obtain ⟨t, hfills, hscans⟩ := scans_nextField hkey he h
    have hrest := suffix_of_append (suffix_of_cons (suffix_of_cons h))
    obtain ⟨more, hmore, hloop⟩ := ih hes hrest (Nat.le_of_succ_le_succ hrounds) (ts ++ [t])
    rw [append_assoc] at hloop
    exact ⟨t :: more, .cons hfills hmore, Ends.bind (Ends.orElse ((hscans true).bind scans_pure)
      (by simp)) (scans_extend.bind hloop)⟩

theorem scans_fields (hc : c ≠ ',') (hblank : isBlank c = false)
    (hkey : e.key ∈ fieldKeys) (he : Readable v legacy text u (fuel + 4) e (fieldList es ++ c :: cs))
    (hes : ReadableAll v legacy text u (fuel + 2) (c :: cs) es) (h : At text skip pos (e.text ++ (fieldList es ++ c :: cs))) :
    ∃ ts, List.Forall₂ Entry.Fills (e :: es) ts ∧
    Scans (scan v legacy text (fuel + 5) (delimited (objectField legacy)) skip pos) u (place text (c :: cs), .own ⟨ts, []⟩) := by
  have hplace : At text true (place text (e.text ++ (fieldList es ++ c :: cs))) (e.text ++ (fieldList es ++ c :: cs)) := by
    obtain ⟨d, ds, htext, hd⟩ := Entry.text_cases hkey
    rw [htext] at h ⊢
    exact at_solid h.rest hd
  obtain ⟨t, hfills, hscans⟩ := he _ hplace
  have hrest := suffix_of_append h.rest
  cases es with
  | nil =>
    refine ⟨[t], .cons hfills .nil, ends_seq h (hscans false) (ends_items_nothing
      (scans_many_none (at_solid hrest hblank) rfl ?_) scans_pure)⟩
    exact lacks_seq (at_place hrest) (lacks_mark (at_place hrest) (by simpa using hc.symm))
  | cons e' es =>
    obtain ⟨hkey', he', hes⟩ := hes
    rw [fieldList_cons_append] at hrest hscans h
    obtain ⟨t', hfills', hscans'⟩ := scans_nextField hkey' he' hrest
    have hmore := suffix_of_append (suffix_of_cons (suffix_of_cons hrest))
    have hrounds : es.length ≤ text.size + 1 := by
      have hshort : (fieldList es ++ c :: cs).length ≤ text.size := hmore.length_le
      have hle := length_le_fieldList es
      rw [length_append] at hshort
      omega
    obtain ⟨more, hmore, hloop⟩ := scans_moreFields hc hblank hes hmore hrounds [t']
    exact ⟨t :: t' :: more, .cons hfills (.cons hfills' hmore), ends_seq h (hscans false) (ends_items
      (scans_many (at_solid hrest (by decide)) rfl (hscans' false) hloop) scans_pure)⟩

end Entries

/-! ### Noting the fields -/

def Assembler.withFields (u : Assembler) (es : List Entry) : Assembler :=
  { u with objectData := es.foldl (fun data e => Table.put e.key e.value data) u.objectData }

section Noting

variable {u : Assembler} {es : List Entry} {ts : List Token} {site : Grammar.Site}

theorem gets_forIn_fields {f : Token → PUnit → Build (ForInStep PUnit)}
    (hstep : ∀ (e : Entry) t (m : Machine Assembler), e.Fills t → Table.find? e.key m.user.objectData = none →
    Gets (f t ⟨⟩) m (.yield ⟨⟩) { m with user := m.user.withFields [e] })
    (hts : List.Forall₂ Entry.Fills es ts) (hnodup : (es.map Entry.key).Nodup) :
    ∀ m : Machine Assembler, (∀ e ∈ es, Table.find? e.key m.user.objectData = none) →
      Gets (forIn ts PUnit.unit f) m ⟨⟩ { m with user := m.user.withFields es } := by
  induction hts with
  | nil => exact fun m _ => rfl
  | @cons e t es ts hfills _ ih =>
    intro m hnew
    obtain ⟨hkey, hnodup⟩ := nodup_cons.1 hnodup
    obtain ⟨he, hes⟩ := forall_mem_cons.1 hnew
    have hmore : ∀ e' ∈ es, Table.find? e'.key (m.user.withFields [e]).objectData = none := by
      intro e' he'
      refine (Table.find?_put _ _ _ _).trans ((if_neg ?_).trans (hes e' he'))
      exact fun heq => hkey (heq ▸ mem_map_of_mem he')
    rw [forIn_cons, gets_bind]
    exact ⟨_, _, hstep e t m hfills he, ih hnodup { m with user := m.user.withFields [e] } hmore⟩

theorem ends_setKind {kind : ScriptKind} (h : u.kind = none) : Ends (setKind kind) u (.ok ⟨⟩) { u with kind := some kind } := by
  refine ends_of_gets fun m hm => ?_
  subst hm
  rw [Gets, setKind, run_state_bind, h]
  rfl

theorem scans_state : Scans state u u := ends_of_gets fun _ hm => hm ▸ rfl

theorem objectData_withFields (hdata : u.objectData = []) (hnodup : (es.map Entry.key).Nodup) :
    (u.withFields es).objectData = es.map Entry.noted := by
  have hkeys : ([] ++ es.map Entry.noted).map Prod.fst = es.map Entry.key := by
    rw [nil_append, map_map]
    rfl
  have hput := Table.foldl_put (es.map Entry.noted) [] (hkeys ▸ hnodup)
  rw [foldl_map] at hput
  rw [Assembler.withFields, hdata]
  exact hput

theorem ends_objectAction (hkind : u.kind = none) (hdata : u.objectData = [])
    (hts : List.Forall₂ Entry.Fills es ts) (hnodup : (es.map Entry.key).Nodup) (hsize : es.length < 11 ∨ 11 < es.length) :
    Ends (objectAction site ⟨ts, [("objdata", .group ts [])]⟩) u (if es.length < 11 then .error (.fault (.script
    "Insufficient arguments in #object-data directive. All items except \"unknown\" are mandatory.")) else .ok (.tokens []))
    ({ u with kind := some .object }.withFields es) := by
  have hfields := objectData_withFields (u := { u with kind := some .object }) hdata hnodup
  refine (ends_setKind hkind).bind (Ends.bind scans_pure
    (@Ends.bind _ _ _ _ _ PUnit.unit _ ({ u with kind := some .object }.withFields es) _ _ (ends_of_gets fun m hm => ?_) ?_))
  · refine hm ▸ gets_forIn_fields (fun e t m hfills hnew => ?_) hts hnodup m fun e _ => ?_
    · obtain ⟨key, written, value⟩ := e
      obtain ⟨c, rfl, rfl, rfl⟩ := hfills
      have hentry : capture? (some c.toToken) = pure (some c) := rfl
      rw [hentry, pure_bind]
      refine (run_state_bind _ m).trans ?_
      dsimp only [Option.getD_some]
      rw [hnew]
      rfl
    · rw [hm]
      exact (congrArg (Table.find? e.key) hdata).trans rfl
  · refine scans_state.bind ?_
    dsimp only
    rw [hfields, length_map]
    rcases hsize with hsize | hsize
    · rw [if_pos (.inl hsize), if_pos hsize]
      exact fun m hm => ⟨m.furthest, by rw [← hm]; rfl⟩
    · rw [if_neg (by omega), if_neg (by omega)]
      exact ends_of_gets fun m hm => by rw [← hm]; rfl

end Noting

/-! ### The directive -/

section Directive

variable {v : Version} {legacy : Bool} {text : Array Char} {fuel pos stop : Nat} {skip : Bool}
variable {u : Assembler} {e : Entry} {es : List Entry} {c : Char} {cs : List Char}

theorem ends_directive {more : List Char} {c : Capture} {out : Except Stop Reply} {u' : Assembler}
    (hv : v ≠ .v5) (h : At text true pos ("#object-data".toList ++ more))
    (hread : Scans (scan v legacy text (fuel + 3) (.seq [mark "#object-data", .opt (mark "["),
    .named "objdata" (delimited (objectField legacy)), .opt (mark "]")]) true pos) u (stop, .own c))
    (hact : Ends (objectAction ⟨text, pos⟩ c) u out u') (hrange : out ≠ .error (.fault .outOfRange))
    (hmatch : out ≠ .error .mismatch) : Ends (scan v legacy text (fuel + 5) (directive v legacy) skip pos) u
    ((out.map (Reply.onto (.own c))).map (stop, ·)) u' := by
  have haction : (if v = .v5 then noObjectAction else objectAction) = objectAction := if_neg hv
  have hother : ∀ s : String, ¬s.toList <+: "#object-data".toList → s.toList.length ≤ 12 →
      ¬s.toList <+: "#object-data".toList ++ more := by
    intro s hs hlength hprefix
    exact hs (prefix_of_prefix_length_le hprefix (prefix_append _ _) hlength)
  have hout : (out.map (Reply.onto (.own c))).map (stop, ·) ≠ .error .mismatch := by
    cases out with
    | error e => exact fun h => hmatch (by cases h; rfl)
    | ok reply => exact nofun
  unfold directive
  rw [haction]
  refine @ends_first _ _ _ _ _ _ _ _ _ _ _ _ [_, _, _, _] _ ?_ (ends_act hread (ends_perform hact hrange)) hout
  simp only [forall_mem_singleton, forall_mem_cons]
  refine ⟨lacks_act (lacks_seq h (lacks_literal h.again (hother _ ?_ ?_))),
    lacks_act (lacks_seq h (lacks_mark h.again (hother _ ?_ ?_))),
    lacks_act (lacks_seq h (lacks_mark h.again (hother _ ?_ ?_))),
    lacks_act (lacks_seq h (lacks_mark h.again (hother _ ?_ ?_)))⟩
  all_goals decide

/-- The directive of an object's data that starts with a field `e` and more of them behind it. -/
theorem ends_objectData (hv : v ≠ .v5) (hc : c ≠ ',') (hblank : isBlank c = false) (hkey : e.key ∈ fieldKeys)
    (he : Readable v legacy text u (fuel + 4) e (fieldList es ++ c :: cs))
    (hes : ReadableAll v legacy text u (fuel + 2) (c :: cs) es)
    (h : At text true pos ("#object-data".toList ++ ' ' :: '[' :: (e.text ++ (fieldList es ++ c :: cs))))
    (hstop : Scans (scan v legacy text (fuel + 6) (.opt (mark "]")) true (place text (c :: cs))) u (stop, .nothing))
    (hkind : u.kind = none) (hdata : u.objectData = []) (hnodup : ((e :: es).map Entry.key).Nodup)
    (hsize : es.length < 10 ∨ 10 < es.length) :
    Ends (scan v legacy text (fuel + 9) (directive v legacy) skip pos) u (if es.length < 10 then .error (.fault (.script
    "Insufficient arguments in #object-data directive. All items except \"unknown\" are mandatory."))
    else .ok (stop, .own ⟨[], []⟩)) ({ u with kind := some .object }.withFields (e :: es)) := by
  have hspace := suffix_of_append h.rest
  have hfields : At text true (place text (e.text ++ (fieldList es ++ c :: cs))) (e.text ++ (fieldList es ++ c :: cs)) := by
    obtain ⟨d, ds, htext, hd⟩ := Entry.text_cases hkey
    rw [htext] at hspace ⊢
    exact at_solid (suffix_of_cons (suffix_of_cons hspace)) hd
  obtain ⟨ts, hts, hscans⟩ := scans_fields hc hblank hkey he hes hfields
  have hopen : At text true _ _ := at_space hspace (by decide)
  have hends := @ends_directive _ legacy _ _ _ stop skip _ _ _ _ _ hv h (ends_seq h (scans_mark h.again)
    (ends_items_nothing (scans_opt hopen rfl (scans_mark hopen.again))
    (ends_items (scans_named hscans scans_pure) (ends_items_nothing hstop scans_pure))))
    (ends_objectAction hkind hdata hts hnodup (hsize.imp Nat.succ_lt_succ Nat.succ_lt_succ)) (by split <;> simp) (by split <;> simp)
  rw [length_cons] at hends
  rcases hsize with hsize | hsize
  · rw [if_pos (by omega)] at hends ⊢
    exact hends
  · rw [if_neg (by omega)] at hends ⊢
    exact hends

end Directive

end ScummKit.Script
