import Mathlib.Data.List.Basic
import Schematron.Proofs.Xml.Naming
import Schematron.Proofs.Xml.Order
import Schematron.Xml.Location

/-!
Paths to nodes, as reports show them. A path tells nodes apart but for this: elements are counted among those
whose names mean the same, and their steps show what is written.
-/

namespace Schematron.Xml

/-- Texts joined by slashes are told apart if they have no slashes in them and none is empty. -/
theorem eq_of_intercalate_eq {ss ts : List String} (hs : ∀ s ∈ ss, s ≠ "" ∧ '/' ∉ s.toList)
    (ht : ∀ s ∈ ts, s ≠ "" ∧ '/' ∉ s.toList) (h : "/".intercalate ss = "/".intercalate ts) : ss = ts := by
  have hsplit {ss : List String} (hs : ∀ s ∈ ss, s ≠ "" ∧ '/' ∉ s.toList) (hne : ss ≠ []) :
      ("/".intercalate ss).toList.splitOn '/' = ss.map String.toList := by
    rw [String.toList_intercalate]
    refine List.splitOn_intercalate '/' ?_ (by simpa using hne)
    intro l hl
    obtain ⟨s, hmem, rfl⟩ := List.mem_map.mp hl
    exact (hs s hmem).2
  have hempty {ss : List String} (hs : ∀ s ∈ ss, s ≠ "" ∧ '/' ∉ s.toList)
      (h : "" = "/".intercalate ss) : ss = [] := by
    by_contra hne
    have hlist := hsplit hs hne
    rw [← h] at hlist
    have hmem : [] ∈ ss.map String.toList := by
      rw [← hlist]
      exact List.mem_singleton_self _
    obtain ⟨s, hmem, hnil⟩ := List.mem_map.mp hmem
    exact (hs s hmem).1 (String.toList_eq_nil_iff.mp hnil)
  rcases ss with _ | ⟨s, more⟩
  · exact (hempty ht h).symm
  rcases ts with _ | ⟨t, more'⟩
  · exact hempty hs h.symm
  have hlists := (hsplit hs (List.cons_ne_nil s more)).symm.trans
    ((congrArg (fun s : String => s.toList.splitOn '/') h).trans (hsplit ht (List.cons_ne_nil t more')))
  have hinjective : Function.Injective String.toList := fun _ _ => String.toList_injective
  exact List.map_injective_iff.mpr hinjective hlists

/-- A step as a name, which may be empty, and what is behind it. -/
structure Splits (step name rest : String) : Prop where
  eq : step = name ++ rest
  name : ∀ c ∈ name.toList, isWrittenChar c
  rest : ∀ c ∈ rest.toList.head?, isWrittenChar c = false

theorem Splits.unique {step name rest name' rest' : String} (h : Splits step name rest)
    (h' : Splits step name' rest') : name = name' ∧ rest = rest' := by
  obtain ⟨htake, hdrop⟩ := takeWhile_append_of_all h.name h.rest
  obtain ⟨htake', hdrop'⟩ := takeWhile_append_of_all h'.name h'.rest
  have hwhole : name.toList ++ rest.toList = name'.toList ++ rest'.toList := by
    rw [← String.toList_append, ← String.toList_append, ← h.eq, ← h'.eq]
  rw [hwhole] at htake hdrop
  exact ⟨String.toList_injective (htake.symm.trans htake'), String.toList_injective (hdrop.symm.trans hdrop')⟩

namespace Document

variable {d : Document} {n m p : Node}

/-- The steps from the root to a node. -/
def steps (d : Document) (n : Node) : List String :=
  (lineage n.path ++ if n.part = .whole then [] else [n]).map d.locationStep

theorem location_eq_intercalate (d : Document) (n : Node) :
    d.location n = "/" ++ "/".intercalate (d.steps n) := rfl

theorem steps_root : d.steps Node.root = [] := rfl

theorem lineage_concat (path : List Nat) (i : Nat) :
    lineage (path ++ [i]) = lineage path ++ [⟨path ++ [i], .whole⟩] := by
  unfold lineage
  rw [List.length_append, List.length_singleton, List.range_succ, List.map_append]
  congr 1
  · refine List.map_congr_left fun k hk => ?_
    have hlt : k < path.length := List.mem_range.mp hk
    rw [List.take_append_of_le_length hlt]
  · rw [List.map_singleton, List.take_of_length_le (by simp)]

theorem steps_of_parent? (h : n.parent? = some p) : d.steps n = d.steps p ++ [d.locationStep n] := by
  unfold steps
  rcases Node.parent?_cases h with ⟨path, i, rfl, rfl⟩ | ⟨hpart, rfl⟩
  · simp [lineage_concat]
  · simp [hpart]

variable {e : Element Item} {a : Attribute} {s : String}

theorem qualifiedName_element (h : d.view? n = some (.element e)) : d.qualifiedName n = e.asWritten := by
  unfold qualifiedName
  rw [h]
  rfl

/-- The index in the step to an element, if it has namesakes beside it: its place among them. -/
def index? (d : Document) (n : Node) (e : Element Item) : Option Nat :=
  let namesakes := (d.siblings n).filter (d.isElementNamed e.name)
  if namesakes.length > 1 then some (ordinal n namesakes) else none

def indexText : Option Nat → String
  | none => ""
  | some k => "[" ++ toString k ++ "]"

theorem locationStep_element (h : d.view? n = some (.element e)) :
    d.locationStep n = d.qualifiedName n ++ indexText (d.index? n e) := by
  unfold locationStep index?
  rw [h]
  dsimp only
  split
  · simp [indexText, String.append_assoc]
  · simp [indexText]

theorem locationStep_attribute (h : d.view? n = some (.attribute e a)) :
    d.locationStep n = "@" ++ a.asWritten := by
  unfold locationStep qualifiedName
  rw [h]
  rfl

theorem locationStep_text (h : d.view? n = some (.text s)) :
    d.locationStep n = "text()[" ++ toString (ordinal n ((d.siblings n).filter d.isText)) ++ "]" := by
  unfold locationStep
  rw [h]

theorem eq_of_toString_eq {k l : Nat} (h : toString k = toString l) : k = l := by
  have hdigits : Nat.toDigits 10 k = Nat.toDigits 10 l := by
    simpa [Nat.toString_eq_repr, Nat.toList_repr] using congrArg String.toList h
  rw [← Nat.ofDigitChars_ten_toDigits (n := k), hdigits, Nat.ofDigitChars_ten_toDigits]

theorem indexText_injective {k l : Option Nat} (h : indexText k = indexText l) : k = l := by
  have hsome (k : Nat) : indexText (some k) ≠ indexText none := by
    intro h
    simpa [indexText] using congrArg String.toList h
  cases k with
  | none =>
    cases l with
    | none => rfl
    | some l => exact absurd h.symm (hsome l)
  | some k =>
    cases l with
    | none => exact absurd h (hsome k)
    | some l =>
      have hplace : toString k = toString l := by simpa [indexText] using h
      rw [eq_of_toString_eq hplace]

theorem head?_indexText {k : Option Nat} : ∀ c ∈ (indexText k).toList.head?, c = '[' := by
  cases k with
  | none => nofun
  | some k =>
    intro c hc
    simpa [indexText, eq_comm] using hc

theorem indexText_ne_attribute {k : Option Nat} : indexText k ≠ "@" ++ s := by
  intro h
  have hat : '@' = '[' := by
    apply head?_indexText (k := k)
    rw [h]
    simp
  exact absurd hat (by decide)

theorem indexText_ne_text {k : Option Nat} : indexText k ≠ "()[" ++ s ++ "]" := by
  intro h
  have hparenthesis : '(' = '[' := by
    apply head?_indexText (k := k)
    rw [h]
    simp
  exact absurd hparenthesis (by decide)

theorem attribute_ne_text {s' : String} : "@" ++ s ≠ "()[" ++ s' ++ "]" := by
  intro h
  simpa using congrArg (fun s : String => s.toList.head?) h

theorem splits_element (h : d.view? n = some (.element e)) (he : e.Named) :
    Splits (d.locationStep n) (d.qualifiedName n) (indexText (d.index? n e)) := by
  refine ⟨locationStep_element h, ?_, fun c hc => ?_⟩
  · rw [qualifiedName_element h]
    exact he.name.2
  · rw [head?_indexText c hc]
    decide

theorem splits_attribute (h : d.view? n = some (.attribute e a)) :
    Splits (d.locationStep n) "" ("@" ++ a.asWritten) := by
  refine ⟨?_, nofun, fun c hc => ?_⟩
  · rw [locationStep_attribute h, String.empty_append]
  · have hat : c = '@' := by simpa [eq_comm] using hc
    rw [hat]
    decide

theorem splits_text (h : d.view? n = some (.text s)) : Splits (d.locationStep n) "text"
    ("()[" ++ toString (ordinal n ((d.siblings n).filter d.isText)) ++ "]") := by
  have hname : "text".toList.all isWrittenChar = true := by decide
  refine ⟨?_, List.all_eq_true.mp hname, fun c hc => ?_⟩
  · rw [locationStep_text h, ← String.append_assoc, ← String.append_assoc]
    rfl
  · have hbracket : c = '(' := by simpa [eq_comm] using hc
    rw [hbracket]
    decide

/-- A child is among the children of the node above it. -/
theorem mem_siblings {item : Item} (hpart : n.part = .whole) (h : d.item? n.path = some item) :
    n ∈ d.siblings n := by
  obtain ⟨path, part⟩ := n
  cases hpart
  rcases List.eq_nil_or_concat' path with rfl | ⟨above, i, rfl⟩
  · cases h
  dsimp only at h
  rw [item?_concat] at h
  have hlt : i < (d.contentAt above).length := (List.getElem?_eq_some_iff.mp h).1
  unfold siblings
  rw [Node.parent?_concat]
  exact List.mem_map.mpr ⟨i, List.mem_range.mpr hlt, rfl⟩

theorem mem_namesakes (hpart : n.part = .whole) (h : d.item? n.path = some (.element e)) :
    n ∈ (d.siblings n).filter (d.isElementNamed e.name) := by
  have hview : d.view? n = some (.element e) := view?_whole hpart h
  refine List.mem_filter.mpr ⟨mem_siblings hpart h, ?_⟩
  unfold isElementNamed
  rw [hview]
  exact decide_eq_true rfl

theorem mem_texts (hpart : n.part = .whole) (h : d.item? n.path = some (.text s)) :
    n ∈ (d.siblings n).filter d.isText := by
  have hview : d.view? n = some (.text s) := view?_whole hpart h
  refine List.mem_filter.mpr ⟨mem_siblings hpart h, ?_⟩
  unfold isText
  rw [hview]

theorem siblings_congr (h : n.parent? = m.parent?) : d.siblings m = d.siblings n := by
  unfold siblings
  rw [h]

/-- The place in a list tells a node in it apart from others. -/
theorem eq_of_ordinal_eq {nodes : List Node} (hn : n ∈ nodes) (h : ordinal n nodes = ordinal m nodes) :
    n = m :=
  (List.idxOf_inj hn).mp (Nat.succ.inj h)

/-- An index tells elements of one name apart. -/
theorem eq_of_index?_eq {e' : Element Item} (hpart : n.part = .whole) (hpart' : m.part = .whole)
    (h : d.item? n.path = some (.element e)) (h' : d.item? m.path = some (.element e'))
    (hparent : n.parent? = m.parent?) (hname : e.name = e'.name) (hindex : d.index? n e = d.index? m e') :
    n = m := by
  have hn := mem_namesakes hpart h
  have hm := mem_namesakes hpart' h'
  unfold index? at hindex
  rw [siblings_congr hparent, ← hname] at hindex hm
  dsimp only at hindex
  split at hindex
  · exact eq_of_ordinal_eq hn (Option.some.inj hindex)
  · rename_i hfew
    obtain ⟨i, hi, hni⟩ := List.mem_iff_getElem.mp hn
    obtain ⟨j, hj, hmj⟩ := List.mem_iff_getElem.mp hm
    have hij : i = j := by omega
    subst hij
    exact hni.symm.trans hmj

/-- No two attributes of an element are written alike. -/
theorem eq_of_asWritten_eq {e' : Element Item} {a' : Attribute} {i j : Nat} (he : e.Named)
    (hpart : n.part = .attribute i) (hpart' : m.part = .attribute j) (h : d.item? n.path = some (.element e))
    (h' : d.item? m.path = some (.element e')) (ha : e.attributes[i]? = some a) (ha' : e'.attributes[j]? = some a')
    (hparent : n.parent? = m.parent?) (hwritten : a.asWritten = a'.asWritten) : n = m := by
  obtain ⟨path, part⟩ := n
  obtain ⟨path', part'⟩ := m
  cases hpart
  cases hpart'
  cases hparent
  cases h.symm.trans h'
  have hsame : (e.attributes.map (·.asWritten))[i]? = (e.attributes.map (·.asWritten))[j]? := by
    rw [List.getElem?_map, List.getElem?_map, ha, ha']
    exact congrArg some hwritten
  have hlt : i < (e.attributes.map (·.asWritten)).length := by
    rw [List.length_map]
    exact (List.getElem?_eq_some_iff.mp ha).1
  rw [(List.getElem?_inj hlt he.distinct).mp hsame]

/-- Two elements beside each other that a path does not tell apart: their names are not the same, but they
are written alike, and they have the same index, each among the elements of its own name. -/
def Confusable (d : Document) (a b : Node) : Prop :=
  a.parent? = b.parent? ∧ ∃ e e', d.view? a = some (.element e) ∧ d.view? b = some (.element e') ∧
    e.name ≠ e'.name ∧ d.qualifiedName a = d.qualifiedName b ∧ d.index? a e = d.index? b e'

theorem Confusable.location_eq {a b : Node} (h : d.Confusable a b) : a ≠ b ∧ d.location a = d.location b := by
  obtain ⟨hparent, e, e', ha, hb, hname, hwritten, hindex⟩ := h
  refine ⟨?_, ?_⟩
  · rintro rfl
    rw [ha] at hb
    cases hb
    exact hname rfl
  · have hstep : d.locationStep a = d.locationStep b := by
      rw [locationStep_element ha, locationStep_element hb, hwritten, hindex]
    rw [location_eq_intercalate, location_eq_intercalate]
    cases hp : a.parent? with
    | none =>
      rw [Node.eq_root_of_parent? hp, Node.eq_root_of_parent? (hparent.symm.trans hp)]
    | some p =>
      rw [steps_of_parent? hp, steps_of_parent? (hparent.symm.trans hp), hstep]

theorem named_descend {item inner : Item} {way : List Nat} (hitem : item.Named)
    (h : item.descend way = some inner) : inner.Named := by
  induction way generalizing item with
  | nil =>
    cases h
    exact hitem
  | cons i way ih =>
    obtain ⟨child, hchild, hinner⟩ := Option.bind_eq_some_iff.mp h
    cases hitem with
    | element _ hchildren => exact ih (hchildren child (List.mem_of_getElem? hchild)) hinner
    | _ => cases hchild

theorem named_of_item? (hnamed : ∀ i ∈ d.content, i.Named) {path : List Nat}
    (h : d.item? path = some (.element e)) : e.Named := by
  cases path with
  | nil => cases h
  | cons i way =>
    rw [item?_cons] at h
    obtain ⟨child, hchild, hinner⟩ := Option.bind_eq_some_iff.mp h
    cases named_descend (hnamed child (List.mem_of_getElem? hchild)) hinner with
    | element he _ => exact he

section

variable (hnamed : ∀ i ∈ d.content, i.Named) (hm : m ∈ d.order) (hp : n.parent? = some p)
  (hp' : m.parent? = some p) (hstep : d.locationStep n = d.locationStep m)

include hnamed hm hp hp' hstep

theorem eq_or_confusable_of_element (hpart : n.part = .whole) (he : d.item? n.path = some (.element e)) :
    n = m ∨ d.Confusable n m := by
  have hparent : n.parent? = m.parent? := hp.trans hp'.symm
  have hview : d.view? n = some (.element e) := view?_whole hpart he
  have hsplits := splits_element hview (named_of_item? hnamed he)
  rw [hstep] at hsplits
  rcases mem_order_cases hm with rfl | ⟨e', hpart', he'⟩ | ⟨e', j, b, hpart', he', hb⟩ | ⟨s', hpart', hs'⟩
  · cases hp'
  · have hview' : d.view? m = some (.element e') := view?_whole hpart' he'
    obtain ⟨hwritten, htext⟩ := hsplits.unique (splits_element hview' (named_of_item? hnamed he'))
    have hindex : d.index? n e = d.index? m e' := indexText_injective htext
    by_cases hname : e.name = e'.name
    · exact .inl (eq_of_index?_eq hpart hpart' he he' hparent hname hindex)
    · exact .inr ⟨hparent, e, e', hview, hview', hname, hwritten, hindex⟩
  · have hrest := (hsplits.unique (splits_attribute (view?_attribute hpart' he' hb))).2
    exact absurd hrest indexText_ne_attribute
  · have hrest := (hsplits.unique (splits_text (view?_whole hpart' hs'))).2
    exact absurd hrest indexText_ne_text

theorem eq_of_attribute {i : Nat} (hpart : n.part = .attribute i) (he : d.item? n.path = some (.element e))
    (ha : e.attributes[i]? = some a) : n = m := by
  have hsplits := splits_attribute (view?_attribute hpart he ha)
  rw [hstep] at hsplits
  rcases mem_order_cases hm with rfl | ⟨e', hpart', he'⟩ | ⟨e', j, b, hpart', he', hb⟩ | ⟨s', hpart', hs'⟩
  · cases hp'
  · have helement := splits_element (view?_whole hpart' he') (named_of_item? hnamed he')
    exact absurd (hsplits.unique helement).2.symm indexText_ne_attribute
  · have hrest := (hsplits.unique (splits_attribute (view?_attribute hpart' he' hb))).2
    have hwritten : a.asWritten = b.asWritten := by simpa using hrest
    exact eq_of_asWritten_eq (named_of_item? hnamed he) hpart hpart' he he' ha hb (hp.trans hp'.symm) hwritten
  · have hrest := (hsplits.unique (splits_text (view?_whole hpart' hs'))).2
    exact absurd hrest attribute_ne_text

theorem eq_of_text (hpart : n.part = .whole) (hs : d.item? n.path = some (.text s)) : n = m := by
  have hsplits := splits_text (view?_whole hpart hs)
  rw [hstep] at hsplits
  rcases mem_order_cases hm with rfl | ⟨e', hpart', he'⟩ | ⟨e', j, b, hpart', he', hb⟩ | ⟨s', hpart', hs'⟩
  · cases hp'
  · have helement := splits_element (view?_whole hpart' he') (named_of_item? hnamed he')
    exact absurd (hsplits.unique helement).2.symm indexText_ne_text
  · have hrest := (hsplits.unique (splits_attribute (view?_attribute hpart' he' hb))).2
    exact absurd hrest.symm attribute_ne_text
  · have hrest := (hsplits.unique (splits_text (view?_whole hpart' hs'))).2
    have hordinal := eq_of_toString_eq (by simpa using hrest)
    rw [siblings_congr (hp.trans hp'.symm)] at hordinal
    exact eq_of_ordinal_eq (mem_texts hpart hs) hordinal

/-- Nodes with one node above are told apart by their last step, if they are not confusable. -/
theorem eq_or_confusable_of_step (hn : n ∈ d.order) : n = m ∨ d.Confusable n m := by
  rcases mem_order_cases hn with rfl | ⟨e, hpart, he⟩ | ⟨e, i, a, hpart, he, ha⟩ | ⟨s, hpart, hs⟩
  · cases hp
  · exact eq_or_confusable_of_element hnamed hm hp hp' hstep hpart he
  · exact .inl (eq_of_attribute hnamed hm hp hp' hstep hpart he ha)
  · exact .inl (eq_of_text hnamed hm hp hp' hstep hpart hs)

end

theorem slash_notMem_of_isWritten (h : IsWritten s) : '/' ∉ s.toList := by
  intro hmem
  exact absurd (h.2 _ hmem) (by decide)

theorem slash_notMem_toDigits (k : Nat) : '/' ∉ Nat.toDigits 10 k := by
  intro hmem
  have hdigit : ('/' : Char).isDigit = true := Nat.isDigit_of_mem_toDigits (by decide) (by decide) hmem
  exact absurd hdigit (by decide)

theorem slash_notMem_indexText (k : Option Nat) : '/' ∉ (indexText k).toList := by
  cases k with
  | none => nofun
  | some k => simp [indexText, slash_notMem_toDigits k]

/-- A step is not empty and has no slash in it. -/
theorem locationStep_plain (hnamed : ∀ i ∈ d.content, i.Named) (hn : n ∈ d.order) (hp : n.parent? = some p) :
    d.locationStep n ≠ "" ∧ '/' ∉ (d.locationStep n).toList := by
  rcases mem_order_cases hn with rfl | ⟨e, hpart, he⟩ | ⟨e, i, a, hpart, he, ha⟩ | ⟨s, hpart, hs⟩
  · cases hp
  · have hview := view?_whole hpart he
    have hwritten := (named_of_item? hnamed he).name
    rw [locationStep_element hview, qualifiedName_element hview]
    refine ⟨?_, ?_⟩
    · intro h
      simpa [hwritten.1] using congrArg String.toList h
    · simp [slash_notMem_of_isWritten hwritten, slash_notMem_indexText]
  · have hwritten := (named_of_item? hnamed he).attributes a (List.mem_of_getElem? ha)
    rw [locationStep_attribute (view?_attribute hpart he ha)]
    refine ⟨?_, ?_⟩
    · simp
    · simp [slash_notMem_of_isWritten hwritten]
  · rw [locationStep_text (view?_whole hpart hs)]
    refine ⟨?_, ?_⟩
    · simp
    · simp [slash_notMem_toDigits]

theorem steps_plain (hnamed : ∀ i ∈ d.content, i.Named) (hn : n ∈ d.order) :
    ∀ s ∈ d.steps n, s ≠ "" ∧ '/' ∉ s.toList := by
  induction n using Node.parentInduction with
  | top n hnone =>
    rw [Node.eq_root_of_parent? hnone]
    exact List.forall_mem_nil _
  | below n p hp ih =>
    rw [steps_of_parent? hp]
    refine List.forall_mem_append.mpr ⟨ih (mem_order_of_parent? hp hn), ?_⟩
    exact List.forall_mem_singleton.mpr (locationStep_plain hnamed hn hp)

/-- Nodes with the same steps are the same, if their ways do not part at elements that are confusable. -/
theorem eq_or_confusable_of_steps (hnamed : ∀ i ∈ d.content, i.Named) (hn : n ∈ d.order) (hm : m ∈ d.order)
    (h : d.steps n = d.steps m) : n = m ∨
      ∃ a ∈ d.order, ∃ b ∈ d.order, a.path <+: n.path ∧ b.path <+: m.path ∧ d.Confusable a b := by
  -- One node up on both sides the steps are still the same, so the ways part there or nowhere above.
  induction n using Node.parentInduction generalizing m with
  | top n hnone =>
    rw [Node.eq_root_of_parent? hnone, steps_root] at h
    cases hq : m.parent? with
    | none => exact .inl ((Node.eq_root_of_parent? hnone).trans (Node.eq_root_of_parent? hq).symm)
    | some q =>
      rw [steps_of_parent? hq] at h
      exact absurd h.symm (by simp)
  | below n p hp ih =>
    rw [steps_of_parent? hp] at h
    cases hq : m.parent? with
    | none =>
      rw [Node.eq_root_of_parent? hq, steps_root] at h
      exact absurd h (by simp)
    | some q =>
      rw [steps_of_parent? hq] at h
      obtain ⟨habove, hstep⟩ := List.append_inj' h rfl
      have hpn := Node.path_isPrefix_of_parent? hp
      have hqm := Node.path_isPrefix_of_parent? hq
      rcases ih (mem_order_of_parent? hp hn) (mem_order_of_parent? hq hm) habove with
        rfl | ⟨a, ha, b, hb, hap, hbq, hab⟩
      · refine (eq_or_confusable_of_step hnamed hm hp hq (List.singleton_inj.mp hstep) hn).imp_right ?_
        intro hnm
        exact ⟨n, hn, m, hm, List.prefix_rfl, List.prefix_rfl, hnm⟩
      · exact .inr ⟨a, ha, b, hb, hap.trans hpn, hbq.trans hqm, hab⟩

end Document

/-- Two nodes of a document that has been read share a path only where the ways to them part at elements
that are confusable; and elements that are confusable always share theirs. -/
theorem location_shared_at_confusable {text : String} {d : Document} (h : Instance.parse text = some d) :
    (∀ n ∈ d.order, ∀ m ∈ d.order, n ≠ m → d.location n = d.location m →
      ∃ a ∈ d.order, ∃ b ∈ d.order, a.path <+: n.path ∧ b.path <+: m.path ∧ d.Confusable a b) ∧
    ∀ a ∈ d.order, ∀ b ∈ d.order, d.Confusable a b → a ≠ b ∧ d.location a = d.location b := by
  have hnamed := named_of_parse h
  refine ⟨?_, fun a _ b _ hab => hab.location_eq⟩
  intro n hn m hm hne hlocation
  rw [Document.location_eq_intercalate, Document.location_eq_intercalate] at hlocation
  have hjoined : "/".intercalate (d.steps n) = "/".intercalate (d.steps m) := by simpa using hlocation
  have hsteps : d.steps n = d.steps m :=
    eq_of_intercalate_eq (Document.steps_plain hnamed hn) (Document.steps_plain hnamed hm) hjoined
  exact (Document.eq_or_confusable_of_steps hnamed hn hm hsteps).resolve_left hne

/-- Two elements beside each other, one in no namespace and one in the default namespace that it declares. -/
private def writtenAlike (first second : List Item) : Document :=
  ⟨[.element ⟨⟨none, "r"⟩, none, [], [], [.element ⟨⟨none, "a"⟩, none, [], [], first⟩,
    .element ⟨⟨some "u", "a"⟩, none, [], [], second⟩]⟩]⟩

/-- The texts in them have the same path, and so do the elements. -/
theorem location_shared_at_confusable_texts :
    ∃ d, Instance.parse "<r><a>t</a><a xmlns=\"u\">s</a></r>" = some d ∧
      (d.location ⟨[0, 0, 0], .whole⟩ = "/r/a/text()[1]" ∧ d.location ⟨[0, 1, 0], .whole⟩ = "/r/a/text()[1]") ∧
      (∃ a ∈ d.order, ∃ b ∈ d.order, a.path <+: [0, 0, 0] ∧ b.path <+: [0, 1, 0] ∧ d.Confusable a b) ∧
      d.Confusable ⟨[0, 0], .whole⟩ ⟨[0, 1], .whole⟩ ∧
      d.location ⟨[0, 0], .whole⟩ = d.location ⟨[0, 1], .whole⟩ := by
  have hparse : Instance.parse "<r><a>t</a><a xmlns=\"u\">s</a></r>" =
      some (writtenAlike [.text "t"] [.text "s"]) := by
    with_unfolding_all rfl
  obtain ⟨hshared, hconfusable⟩ := location_shared_at_confusable hparse
  have htexts := hshared ⟨[0, 0, 0], .whole⟩ (by decide +kernel) ⟨[0, 1, 0], .whole⟩ (by decide +kernel)
    (by decide) (by decide +kernel)
  have helements : (writtenAlike [.text "t"] [.text "s"]).Confusable ⟨[0, 0], .whole⟩ ⟨[0, 1], .whole⟩ :=
    ⟨rfl, _, _, rfl, rfl, by decide, by decide +kernel, by decide +kernel⟩
  exact ⟨_, hparse, ⟨by decide +kernel, by decide +kernel⟩, htexts, helements,
    (hconfusable ⟨[0, 0], .whole⟩ (by decide +kernel) ⟨[0, 1], .whole⟩ (by decide +kernel) helements).2⟩

/-- A path need not tell two nodes apart. -/
theorem location_not_injective :
    ∃ d, Instance.parse "<r><a/><a xmlns=\"u\"/></r>" = some d ∧
      ∃ n ∈ d.order, ∃ m ∈ d.order, n ≠ m ∧ d.location n = "/r/a" ∧ d.location m = "/r/a" := by
  have hparse : Instance.parse "<r><a/><a xmlns=\"u\"/></r>" = some (writtenAlike [] []) := by
    with_unfolding_all rfl
  exact ⟨_, hparse, ⟨[0, 0], .whole⟩, by decide +kernel, ⟨[0, 1], .whole⟩, by decide +kernel, by decide,
    by decide +kernel, by decide +kernel⟩

end Schematron.Xml
