import Mathlib.Data.List.Induction
import Mathlib.Data.List.Nodup
import Mathlib.Data.List.TakeWhile
import Schematron.Proofs.Reading
import Schematron.Proofs.Success
import Schematron.Xml.Instance

/-!
The names in a document that has been read, whatever its text. They are written with the characters of names
and colons, and no two attributes of one element are written alike.
-/

namespace Schematron.Xml

open Schematron.Reader
open Schematron.Xml.Reader

/-- A name without colons. -/
def IsNcName (s : String) : Prop := s.toList ≠ [] ∧ ∀ c ∈ s.toList, isNameChar c

structure QName.Plain (q : QName) : Prop where
  localPart : IsNcName q.localPart
  nsPrefix : ∀ p ∈ q.nsPrefix, IsNcName p

/-- The names in a tag that opens an element are as they are read. -/
def Event.Plain : Event → Prop
  | .start tag attributes => tag.Plain ∧ ∀ a ∈ attributes, a.1.Plain
  | _ => True

/-- The names in every tag are as they are read. -/
abbrev AllPlain (es : List Event) : Prop := ∀ e ∈ es, e.Plain

theorem gives_ncName : Gives ncName IsNcName := by
  refine gives_bind fun cs => ?_
  cases cs with
  | nil => exact gives_failure
  | cons c rest =>
    by_cases hc : isNameStart c
    · dsimp only
      rw [if_pos hc]
      refine gives_bind fun _ => .pure ⟨?_, fun x hx => ?_⟩
      · rw [String.toList_ofList]
        exact List.cons_ne_nil _ _
      · rw [String.toList_ofList, List.mem_cons] at hx
        rcases hx with rfl | hx
        · simp [isNameChar, hc]
        · exact List.mem_takeWhile_imp hx
    · dsimp only
      rw [if_neg hc]
      exact gives_failure

namespace Instance

theorem gives_qName : Gives qName QName.Plain := by
  refine gives_ncName.bind fun first hfirst => ?_
  have hsecond : Gives (do word [':']; ncName) IsNcName := gives_bind fun _ => gives_ncName
  refine hsecond.attempt.bind fun second hsecond => ?_
  cases second with
  | none => exact .pure ⟨hfirst, nofun⟩
  | some second =>
    refine .pure ⟨hsecond second rfl, fun p hp => ?_⟩
    cases hp
    exact hfirst

theorem attributes_plain {value : Char → Reader String} {cs last : List Char}
    {found : List (QName × String) × Bool} (h : attributes value cs = some (found, last)) :
    ∀ a ∈ found.1, a.1.Plain := by
  have hentry : Gives (do let name ← qName; equals; let q ← quote; return (name, ← value q))
      fun entry => entry.1.Plain := by
    refine gives_qName.bind fun name hname => ?_
    exact gives_bind fun _ => gives_bind fun _ => gives_bind fun _ => .pure hname
  fun_induction attributes value cs generalizing found last with
  | case1 | case2 =>
    cases h
    exact List.forall_mem_nil _
  | case4 cs rest _ entry left hread =>
    rename_i ih
    obtain ⟨⟨⟨more, closed⟩, _⟩, hmore, hfound⟩ := Option.map_eq_some_iff.mp h
    cases hfound
    exact List.forall_mem_cons.mpr ⟨hentry rest entry left hread, ih hmore⟩
  | _ => cases h

theorem gives_startTag {value : Char → Reader String} : Gives (startTag value) AllPlain := by
  refine gives_qName.bind fun tag htag => ?_
  have hattributes : Gives (attributes value) fun found => ∀ a ∈ found.1, a.1.Plain :=
    fun _ _ _ h => attributes_plain h
  refine hattributes.bind fun found hfound => ?_
  obtain ⟨entries, closed⟩ := found
  cases closed with
  | false => exact .pure (List.forall_mem_singleton.mpr ⟨htag, hfound⟩)
  | true =>
    exact .pure (List.forall_mem_cons.mpr ⟨⟨htag, hfound⟩, List.forall_mem_singleton.mpr trivial⟩)

theorem gives_comment : Gives comment Event.Plain :=
  gives_bind fun _ => gives_bind fun _ => gives_bind fun _ => .pure trivial

theorem gives_instruction : Gives instruction Event.Plain := by
  refine gives_bind fun _ => gives_bind fun target => ?_
  refine .ite (gives_bind fun _ => ?_) ?_
  all_goals
    refine gives_bind fun _ => .ite ?_ ?_
    · exact gives_bind fun _ => .pure trivial
    · exact gives_bind fun _ => gives_bind fun _ => .pure trivial

/-- A reader of one event, whose names are as they are read, gives one in a list. -/
theorem gives_singleton {r : Reader Event} (h : Gives r Event.Plain) :
    Gives (do return [← r]) AllPlain :=
  h.bind fun _ he => .pure (List.forall_mem_singleton.mpr he)

theorem gives_piece : Gives piece AllPlain := by
  unfold piece
  refine gives_bind fun cs => ?_
  have htext (s : String) : ∀ e ∈ [Event.text s], e.Plain := List.forall_mem_singleton.mpr trivial
  split
  · have hend : Gives endTag AllPlain :=
      gives_bind fun _ => gives_bind fun _ => gives_bind fun _ =>
        .pure (List.forall_mem_singleton.mpr trivial)
    exact gives_bind fun _ => hend
  · exact gives_singleton gives_comment
  · exact gives_bind fun _ => gives_bind fun _ => .pure (htext _)
  · exact gives_singleton gives_instruction
  · exact gives_bind fun _ => gives_startTag
  · exact gives_bind fun _ => .pure (htext _)
  · split
    · exact gives_failure
    · exact gives_bind fun _ => .pure (htext _)

theorem gives_untilClosed (depth : Nat) : Gives (untilClosed piece depth) AllPlain := by
  intro cs es last h
  fun_induction untilClosed piece depth cs generalizing es last with
  | case1 =>
    cases h
    exact List.forall_mem_nil _
  | case3 depth cs _ found rest hread _ ih =>
    obtain ⟨⟨more, _⟩, hmore, hfound⟩ := Option.map_eq_some_iff.mp h
    cases hfound
    exact List.forall_mem_append.mpr ⟨gives_piece cs found rest hread, ih _ _ hmore⟩
  | _ => cases h

theorem gives_rootElement : Gives rootElement AllPlain := by
  refine gives_bind fun _ => gives_startTag.bind fun opening hopening => ?_
  refine (gives_untilClosed _).bind fun more hmore => ?_
  exact .pure (List.forall_mem_append.mpr ⟨hopening, hmore⟩)

theorem gives_misc : Gives misc AllPlain := by
  unfold misc
  refine gives_bind fun cs => ?_
  split
  · exact gives_singleton gives_comment
  · exact gives_singleton gives_instruction
  · exact gives_bind fun _ => .pure (List.forall_mem_nil _)

theorem gives_prologPiece : Gives prologPiece AllPlain := by
  unfold prologPiece
  refine gives_bind fun cs => ?_
  split
  · exact gives_bind fun _ => .pure (List.forall_mem_nil _)
  · exact gives_misc

theorem gives_manyOf {piece : Reader (List Event)} (h : Gives piece AllPlain) :
    Gives (manyOf piece) AllPlain := by
  intro cs es rest hread
  cases hread
  exact List.forall_mem_flatten.mpr (h.many cs)

/-- The names in all tags of a document are as they are read. -/
theorem gives_events : Gives events AllPlain := by
  refine Gives.bind (P := fun found => ∀ es ∈ found, AllPlain es) ?_ fun first hfirst => ?_
  · refine gives_bind fun declared => ?_
    cases declared with
    | none => exact gives_misc.attempt
    | some _ =>
      refine .pure fun es hes => ?_
      cases hes
      exact List.forall_mem_nil _
  refine Gives.bind (P := AllPlain) ?_ fun before hbefore => ?_
  · cases first with
    | none => exact .pure (List.forall_mem_nil _)
    | some found =>
      refine (gives_manyOf gives_prologPiece).bind fun more hmore => ?_
      exact .pure (List.forall_mem_append.mpr ⟨hfirst found rfl, hmore⟩)
  refine gives_rootElement.bind fun root hroot => ?_
  refine (gives_manyOf gives_misc).bind fun final hfinal => ?_
  refine gives_bind fun left => .ite (.pure ?_) gives_failure
  exact List.forall_mem_append.mpr ⟨List.forall_mem_append.mpr ⟨hbefore, hroot⟩, hfinal⟩

end Instance

/-- A name with its prefix, as it is written. -/
def Name.asWritten (name : Name) (nsPrefix : Option String) : String :=
  match name.uri, nsPrefix with
  | some _, some p => p ++ ":" ++ name.localPart
  | _, _ => name.localPart

def Element.asWritten (e : Element Item) : String := e.name.asWritten e.nsPrefix

def Attribute.asWritten (a : Attribute) : String := a.name.asWritten a.nsPrefix

def isWrittenChar (c : Char) : Bool := isNameChar c || c = ':'

def IsWritten (s : String) : Prop := s.toList ≠ [] ∧ ∀ c ∈ s.toList, isWrittenChar c

theorem IsNcName.isWritten {s : String} (h : IsNcName s) : IsWritten s :=
  ⟨h.1, fun c hc => by simp [isWrittenChar, h.2 c hc]⟩

theorem IsNcName.colon_notMem {s : String} (h : IsNcName s) : ':' ∉ s.toList := by
  intro hmem
  exact absurd (h.2 _ hmem) (by decide)

theorem isWritten_asWritten {name : Name} {nsPrefix : Option String} (hlocal : IsNcName name.localPart)
    (hpre : ∀ p ∈ nsPrefix, IsNcName p) : IsWritten (name.asWritten nsPrefix) := by
  unfold Name.asWritten
  split
  · rename_i p _
    have hp : IsWritten p := (hpre p rfl).isWritten
    refine ⟨?_, fun c hc => ?_⟩
    · simp [hp.1]
    · simp only [String.toList_append, List.mem_append] at hc
      rcases hc with (hc | hc) | hc
      · exact hp.2 c hc
      · cases List.mem_singleton.mp hc
        rfl
      · exact hlocal.isWritten.2 c hc
  · exact hlocal.isWritten

/-- An attribute with names as they are read; it is in a namespace just where it has a prefix. -/
structure Attribute.Plain (a : Attribute) : Prop where
  localPart : IsNcName a.name.localPart
  nsPrefix : ∀ p ∈ a.nsPrefix, IsNcName p
  declared : a.name.uri.isSome = a.nsPrefix.isSome

theorem Attribute.asWritten_none {a : Attribute} (hp : a.nsPrefix = none) :
    a.asWritten = a.name.localPart := by
  unfold Attribute.asWritten Name.asWritten
  rw [hp]
  split
  · contradiction
  · rfl

theorem Attribute.Plain.asWritten_some {a : Attribute} (h : a.Plain) {p : String} (hp : a.nsPrefix = some p) :
    a.asWritten = p ++ ":" ++ a.name.localPart := by
  obtain ⟨uri, huri⟩ := Option.isSome_iff_exists.mp (h.declared.trans (congrArg Option.isSome hp))
  unfold Attribute.asWritten Name.asWritten
  rw [hp, huri]

/-- The prefix and the name behind it can be told from what is written. -/
theorem Attribute.Plain.eq_of_asWritten_eq {a b : Attribute} (ha : a.Plain) (hb : b.Plain)
    (h : a.asWritten = b.asWritten) : a.nsPrefix = b.nsPrefix ∧ a.name.localPart = b.name.localPart := by
  have hcolon {p l : String} : ':' ∈ (p ++ ":" ++ l).toList := by simp
  rcases hpa : a.nsPrefix with _ | p <;> rcases hpb : b.nsPrefix with _ | q
  · rw [Attribute.asWritten_none hpa, Attribute.asWritten_none hpb] at h
    exact ⟨rfl, h⟩
  · rw [Attribute.asWritten_none hpa, hb.asWritten_some hpb] at h
    have hmem : ':' ∈ a.name.localPart.toList := by
      rw [h]
      exact hcolon
    exact absurd hmem ha.localPart.colon_notMem
  · rw [ha.asWritten_some hpa, Attribute.asWritten_none hpb] at h
    have hmem : ':' ∈ b.name.localPart.toList := by
      rw [← h]
      exact hcolon
    exact absurd hmem hb.localPart.colon_notMem
  · rw [ha.asWritten_some hpa, hb.asWritten_some hpb] at h
    have hlist : p.toList ++ ':' :: a.name.localPart.toList = q.toList ++ ':' :: b.name.localPart.toList := by
      simpa using congrArg String.toList h
    obtain ⟨hpre, -, hlocal⟩ := (List.append_cons_inj_of_notMem (ha.nsPrefix p hpa).colon_notMem
      ha.localPart.colon_notMem).mp hlist
    exact ⟨congrArg some (String.toList_injective hpre), String.toList_injective hlocal⟩

/-- An element is written with the characters of names and colons, and so are its attributes, no two of
which are written alike. -/
structure Element.Named (e : Element Item) : Prop where
  name : IsWritten e.asWritten
  attributes : ∀ a ∈ e.attributes, IsWritten a.asWritten
  distinct : (e.attributes.map (·.asWritten)).Nodup

namespace Instance

/-- Of the attributes that mean one name, one stays. -/
theorem nodup_names_foldl (as : List Attribute) :
    ((as.foldl (fun acc a => acc.filter (·.name ≠ a.name) ++ [a]) []).map (·.name)).Nodup ∧
      ∀ a ∈ as.foldl (fun acc a => acc.filter (·.name ≠ a.name) ++ [a]) [], a ∈ as := by
  induction as using List.reverseRecOn with
  | nil => exact ⟨List.nodup_nil, List.forall_mem_nil _⟩
  | append_singleton as a ih =>
    obtain ⟨hnodup, hmem⟩ := ih
    rw [List.foldl_append]
    refine ⟨?_, ?_⟩
    · rw [List.foldl_cons, List.foldl_nil, List.map_append, List.nodup_append]
      refine ⟨hnodup.sublist (List.filter_sublist.map _), List.nodup_singleton _, ?_⟩
      intro n hn m hm
      obtain ⟨b, hb, rfl⟩ := List.mem_map.mp hn
      cases List.mem_singleton.mp hm
      simpa using (List.mem_filter.mp hb).2
    · intro b hb
      rcases List.mem_append.mp hb with hb | hb
      · exact List.mem_append_left _ (hmem b (List.mem_of_mem_filter hb))
      · exact List.mem_append_right _ hb

/-- The attributes of a tag are as they are read, and no two are written alike. -/
theorem distinct_of_arrange {around : Scope} {e : Entries} {as : List Attribute}
    (hentries : ∀ a ∈ e.attributes, a.1.Plain) (h : arrange around e = some as) :
    (∀ a ∈ as, a.Plain) ∧ (as.map (·.asWritten)).Nodup := by
  unfold arrange at h
  obtain ⟨all, hall, has⟩ := Option.bind_eq_some_iff.mp h
  cases has
  have hread : ∀ a ∈ all, a.Plain ∧
      a.name.uri = a.nsPrefix.bind fun p => (e.prefixes.lookup p <|> inherited? around p) := by
    intro a ha
    obtain ⟨⟨name, value⟩, hmem, ha⟩ := exists_of_mapM_eq_some hall a ha
    have hname : name.Plain := hentries _ (List.mem_mergeSort.mp hmem)
    dsimp only at ha
    cases hpre : name.nsPrefix with
    | none =>
      rw [hpre] at ha
      cases ha
      exact ⟨⟨hname.localPart, nofun, rfl⟩, rfl⟩
    | some p =>
      rw [hpre] at ha
      obtain ⟨uri, huri, rfl⟩ := Option.map_eq_some_iff.mp ha
      exact ⟨⟨hname.localPart, fun q hq => hname.nsPrefix q (hpre.trans hq), rfl⟩, huri.symm⟩
  obtain ⟨hnodup, hmem⟩ := nodup_names_foldl all
  refine ⟨fun a ha => (hread a (hmem a ha)).1, hnodup.of_map.map_on fun a ha b hb hab => ?_⟩
  obtain ⟨hplain, huri⟩ := hread a (hmem a ha)
  obtain ⟨hplain', huri'⟩ := hread b (hmem b hb)
  obtain ⟨hpre, hlocal⟩ := hplain.eq_of_asWritten_eq hplain' hab
  have hname : a.name = b.name := by
    have hsame : a.name.uri = b.name.uri := by rw [huri, huri', hpre]
    cases ha' : a.name
    cases hb' : b.name
    rw [ha', hb'] at hsame hlocal
    cases hsame
    cases hlocal
    rfl
  exact List.inj_on_of_nodup_map hnodup ha hb hname

theorem named_of_opened {around : Option Scope} {tag : QName} {e : Entries} {scope : Scope}
    {header : Element Item} (htag : tag.Plain) (hentries : ∀ a ∈ e.attributes, a.1.Plain)
    (h : opened around tag e = some (scope, header)) : header.Named := by
  unfold opened at h
  dsimp only at h
  split at h
  · cases h
  obtain ⟨name, hname, h⟩ := Option.bind_eq_some_iff.mp h
  obtain ⟨attributes, hattributes, ⟨⟩⟩ := Option.bind_eq_some_iff.mp h
  have hlocal : name.localPart = tag.localPart := by
    unfold elementName? at hname
    split at hname
    · obtain ⟨uri, -, rfl⟩ := Option.map_eq_some_iff.mp hname
      rfl
    · cases hname
      rfl
    · cases hname
      rfl
  obtain ⟨hplain, hdistinct⟩ := distinct_of_arrange hentries hattributes
  refine ⟨isWritten_asWritten ?_ htag.nsPrefix, fun a ha => ?_, hdistinct⟩
  · rw [hlocal]
    exact htag.localPart
  · exact isWritten_asWritten (hplain a ha).localPart (hplain a ha).nsPrefix

end Instance

/-- The elements of an item are named, itself and all that are inside it. -/
inductive Item.Named : Item → Prop where
  | element {e : Element Item} (h : e.Named) (hchildren : ∀ i ∈ e.children, Named i) : Named (.element e)
  | text (s : String) : Named (.text s)
  | comment (s : String) : Named (.comment s)
  | instruction (target : String) (value : Option String) : Named (.instruction target value)

/-- An element whose end has not been met is named so far. -/
structure Open.Named (o : Open) : Prop where
  header : o.header.Named
  content : ∀ i ∈ o.content, i.Named

structure Building (opened : List Open) (top : List Item) : Prop where
  opened : ∀ o ∈ opened, o.Named
  top : ∀ i ∈ top, i.Named

theorem Building.addItem {opened : List Open} {top : List Item} (h : Building opened top) {item : Item}
    (hitem : item.Named) :
    Building (Assembly.addItem item opened top).1 (Assembly.addItem item opened top).2 := by
  cases opened with
  | nil => exact ⟨h.opened, List.forall_mem_cons.mpr ⟨hitem, h.top⟩⟩
  | cons o more =>
    obtain ⟨ho, hmore⟩ := List.forall_mem_cons.mp h.opened
    have hadded : Open.Named { o with content := item :: o.content } :=
      ⟨ho.header, List.forall_mem_cons.mpr ⟨hitem, ho.content⟩⟩
    exact ⟨List.forall_mem_cons.mpr ⟨hadded, hmore⟩, h.top⟩

theorem Open.Named.element {o : Open} (h : o.Named) :
    (Item.element { o.header with children := o.content.reverse }).Named := by
  have helement : Element.Named { o.header with children := o.content.reverse } :=
    ⟨h.header.name, h.header.attributes, h.header.distinct⟩
  exact .element helement fun i hi => h.content i (List.mem_reverse.mp hi)

theorem named_addText {a : Assembly} (s : String) {content : List Item} (h : ∀ i ∈ content, i.Named) :
    ∀ i ∈ a.addText s content, i.Named := by
  unfold Assembly.addText
  split
  · have hrest := (List.forall_mem_cons.mp h).2
    split
    · exact List.forall_mem_cons.mpr ⟨.text _, hrest⟩
    · exact List.forall_mem_cons.mpr ⟨.text _, List.forall_mem_cons.mpr ⟨.text _, hrest⟩⟩
  · exact List.forall_mem_cons.mpr ⟨.text s, h⟩

/-- The items that the events of tags as they are read stand for are named. -/
theorem named_of_build {events : List Event} {opened : List Open} {top content : List Item}
    (hevents : AllPlain events) (hbuilding : Building opened top)
    (h : Instance.assembly.build opened top events = some content) : ∀ i ∈ content, i.Named := by
  -- An element is named from its tag on, though it gets its content only at its end.
  induction events generalizing opened top with
  | nil =>
    unfold Assembly.build at h
    split at h
    · cases h
      exact fun i hi => hbuilding.top i (List.mem_reverse.mp hi)
    · cases h
  | cons event events ih =>
    obtain ⟨hevent, hrest⟩ := List.forall_mem_cons.mp hevents
    cases event with
    | start tag entries =>
      unfold Assembly.build at h
      split at h
      · rename_i scope header hopened
        have hentries : ∀ a ∈ (Entries.ofTag entries).attributes, a.1.Plain := fun a ha =>
          hevent.2 a (List.mem_of_mem_filter (List.mem_of_mem_filter ha))
        have hheader : header.Named := Instance.named_of_opened hevent.1 hentries hopened
        have hopen : Open.Named ⟨tag, scope, header, []⟩ := ⟨hheader, List.forall_mem_nil _⟩
        exact ih hrest ⟨List.forall_mem_cons.mpr ⟨hopen, hbuilding.opened⟩, hbuilding.top⟩ h
      · cases h
    | finish tag =>
      unfold Assembly.build at h
      cases opened with
      | nil => cases h
      | cons o more =>
        dsimp only at h
        split at h
        · obtain ⟨ho, hmore⟩ := List.forall_mem_cons.mp hbuilding.opened
          have haround : Building more top := ⟨hmore, hbuilding.top⟩
          exact ih hrest (haround.addItem ho.element) h
        · cases h
    | stray entries =>
      unfold Assembly.build at h
      split at h
      · exact ih hrest hbuilding h
      · cases h
    | text s =>
      cases opened with
      | nil => exact ih hrest ⟨hbuilding.opened, named_addText s hbuilding.top⟩ h
      | cons o more =>
        obtain ⟨ho, hmore⟩ := List.forall_mem_cons.mp hbuilding.opened
        have hadded : Open.Named { o with content := Instance.assembly.addText s o.content } :=
          ⟨ho.header, named_addText s ho.content⟩
        exact ih hrest ⟨List.forall_mem_cons.mpr ⟨hadded, hmore⟩, hbuilding.top⟩ h
    | comment s =>
      exact ih hrest (hbuilding.addItem (.comment s)) h
    | instruction target value =>
      exact ih hrest (hbuilding.addItem (.instruction target value)) h

/-- In a document that has been read, all elements are named. -/
theorem named_of_parse {text : String} {d : Document} (h : Instance.parse text = some d) :
    ∀ i ∈ d.content, i.Named := by
  unfold Instance.parse at h
  obtain ⟨⟨events, rest⟩, hevents, hdocument⟩ := Option.bind_eq_some_iff.mp h
  unfold Assembly.document? at hdocument
  obtain ⟨content, hbuild, hcontent⟩ := Option.bind_eq_some_iff.mp hdocument
  split at hcontent
  · cases hcontent
    have hplain : AllPlain events := Instance.gives_events _ events rest hevents
    exact named_of_build hplain ⟨List.forall_mem_nil _, List.forall_mem_nil _⟩ hbuild
  · cases hcontent

end Schematron.Xml
