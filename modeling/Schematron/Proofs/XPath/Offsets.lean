import Schematron.Proofs.XPath.Quotes

/-!
Where the tokens of a text stand in it. Each begins at its offset, in bytes, and what the text says from there to
the next one is the token as it is written and white space. A fault is reported at the end of the text or at a
character of it.
-/

namespace Schematron.XPath

open Schematron.Text (isBlank skipBlanks)

section

variable {source : String} {before part after : List Char}

theorem byteLength_cons (c : Char) (cs : List Char) : byteLength (c :: cs) = c.utf8Size + byteLength cs := rfl

theorem byteLength_append (cs ds : List Char) : byteLength (cs ++ ds) = byteLength cs + byteLength ds := by
  induction cs with
  | nil => exact (Nat.zero_add _).symm
  | cons c cs ih => rw [List.cons_append, byteLength_cons, byteLength_cons, ih, Nat.add_assoc]

theorem byteLength_pos {cs : List Char} (h : cs ≠ []) : 0 < byteLength cs := by
  obtain ⟨c, more, rfl⟩ := List.exists_cons_of_ne_nil h
  have hc : 0 < c.utf8Size := c.utf8Size_pos
  rw [byteLength_cons]
  omega

theorem utf8ByteSize_eq (source : String) : source.utf8ByteSize = byteLength source.toList := by
  obtain ⟨cs, rfl⟩ := source.exists_eq_ofList
  rw [String.toList_ofList]
  induction cs with
  | nil => rfl
  | cons c cs ih =>
    rw [String.ofList_cons, String.utf8ByteSize_append, String.utf8ByteSize_singleton, ih]
    rfl

/-- The position behind characters that are passed. -/
theorem passed_cons (start : Nat) (c : Char) (cs : List Char) :
    (⟨start + byteLength (c :: cs)⟩ : String.Pos.Raw) = ⟨(start + c.utf8Size) + byteLength cs⟩ := by
  rw [byteLength_cons, Nat.add_assoc]

theorem ne_passed (start : Nat) (c : Char) (cs : List Char) :
    (⟨start⟩ : String.Pos.Raw) ≠ ⟨start + byteLength (c :: cs)⟩ := by
  have hpos : 0 < byteLength (c :: cs) := byteLength_pos (List.cons_ne_nil c cs)
  intro heq
  have hbytes := congrArg String.Pos.Raw.byteIdx heq
  simp only at hbytes
  omega

theorem utf8GetAux?_append (start : Nat) (before : List Char) (c : Char) (after : List Char) :
    String.Pos.Raw.utf8GetAux? (before ++ c :: after) ⟨start⟩ ⟨start + byteLength before⟩ = some c := by
  induction before generalizing start with
  | nil => exact if_pos rfl
  | cons d before ih =>
    have hmore := ih (start + d.utf8Size)
    rw [← passed_cons] at hmore
    exact (if_neg (ne_passed start d before)).trans hmore

/-- At the offset behind `before` stands the next character. -/
theorem get?_of_append {c : Char} (h : source.toList = before ++ c :: after) :
    String.Pos.Raw.get? source ⟨byteLength before⟩ = some c := by
  have hget := utf8GetAux?_append 0 before c after
  rw [← h, Nat.zero_add] at hget
  exact hget

theorem go₂_append (start : Nat) (part after : List Char) :
    String.Pos.Raw.extract.go₂ (part ++ after) ⟨start⟩ ⟨start + byteLength part⟩ = part := by
  induction part generalizing start with
  | nil =>
    cases after with
    | nil => rfl
    | cons c after => exact if_pos rfl
  | cons c part ih =>
    have hmore := ih (start + c.utf8Size)
    rw [← passed_cons] at hmore
    exact (if_neg (ne_passed start c part)).trans (congrArg (c :: ·) hmore)

theorem go₁_append (start : Nat) (before rest : List Char) (stop : String.Pos.Raw) :
    String.Pos.Raw.extract.go₁ (before ++ rest) ⟨start⟩ ⟨start + byteLength before⟩ stop =
      String.Pos.Raw.extract.go₂ rest ⟨start + byteLength before⟩ stop := by
  induction before generalizing start with
  | nil =>
    cases rest with
    | nil => rfl
    | cons c rest => exact if_pos rfl
  | cons c before ih =>
    have hmore := ih (start + c.utf8Size)
    rw [← passed_cons] at hmore
    exact (if_neg (ne_passed start c before)).trans hmore

/-- What a text says from the offset of a part of it to the offset behind that part. -/
theorem extract_of_append (h : source.toList = before ++ part ++ after) :
    String.Pos.Raw.extract source ⟨byteLength before⟩ ⟨byteLength before + byteLength part⟩ = String.ofList part := by
  have hgo := go₁_append 0 before (part ++ after) ⟨byteLength before + byteLength part⟩
  rw [Nat.zero_add, go₂_append, ← List.append_assoc, ← h] at hgo
  cases part with
  | nil => exact if_pos (Nat.le_refl _)
  | cons c part =>
    have hpos : 0 < byteLength (c :: part) := byteLength_pos (List.cons_ne_nil c part)
    have hlt : ¬byteLength before ≥ byteLength before + byteLength (c :: part) := by omega
    exact (if_neg hlt).trans (congrArg String.ofList hgo)

/-- A place of a text in bytes: its end, or where a character of it begins. -/
structure IsPlace (source : String) (offset : Nat) : Prop where
  found : offset = source.utf8ByteSize ∨ ∃ c, String.Pos.Raw.get? source ⟨offset⟩ = some c
  boundary : (⟨offset⟩ : String.Pos.Raw).IsValid source

theorem isPlace_of_append (h : source.toList = before ++ after) : IsPlace source (byteLength before) where
  found := by
    cases after with
    | nil =>
      rw [List.append_nil] at h
      exact .inl (by rw [utf8ByteSize_eq, h])
    | cons c after => exact .inr ⟨c, get?_of_append h⟩
  boundary := by
    rw [String.Pos.Raw.isValid_iff_exists_take_toList]
    refine ⟨before.length, ?_⟩
    rw [h, List.take_left, utf8ByteSize_eq, String.toList_ofList]

end

/-- The value of a literal between two quotes: each such quote in it is written twice. -/
def doubled (quote : Char) (value : List Char) : List Char :=
  value.flatMap fun c => if c = quote then [c, c] else [c]

/-- A token as it is written; `quote` stands around a literal. -/
def Token.written (quote : Char) : Token → List Char
  | lparen => ['('] | rparen => [')'] | lbracket => ['['] | rbracket => [']']
  | dot => ['.'] | dotDot => ['.', '.'] | atSign => ['@'] | comma => [','] | colonColon => [':', ':']
  | slash => ['/'] | doubleSlash => ['/', '/'] | pipe => ['|'] | plus => ['+'] | minus => ['-']
  | eq => ['='] | notEq => ['!', '='] | lt => ['<'] | ltEq => ['<', '='] | gt => ['>'] | gtEq => ['>', '=']
  | multiply => ['*']
  | operatorName s | nameTest s | nodeType s | functionName s | axisName s | number s => s.toList
  | variableName s => '$' :: s.toList
  | literal s => quote :: (doubled quote s.toList ++ [quote])

/-- Characters that a token may be written in. -/
def Token.IsWritten (t : Token) (cs : List Char) : Prop := ∃ quote, isQuote quote = true ∧ cs = t.written quote

theorem Token.IsWritten.of_forall {t : Token} {cs : List Char} (h : ∀ quote, t.written quote = cs) : t.IsWritten cs :=
  ⟨'\'', rfl, (h '\'').symm⟩

theorem closeLiteral_written {quote : Char} {cs v after : List Char}
    (h : closeLiteral .doubled quote cs = some (v, after)) : cs = doubled quote v ++ quote :: after := by
  fun_induction closeLiteral .doubled quote cs generalizing v with
  | case1 => cases h
  | case2 =>
    cases h
    rfl
  | case3 => cases h
  | case4 d rest hdoubled ih =>
    obtain ⟨⟨w, last⟩, hw, heq⟩ := Option.map_eq_some_iff.mp h
    cases heq
    obtain ⟨-, rfl⟩ := hdoubled
    rw [ih hw]
    simp [doubled]
  | case5 d rest hplain =>
    cases h
    rfl
  | case6 c d rest hc ih =>
    obtain ⟨⟨w, last⟩, hw, heq⟩ := Option.map_eq_some_iff.mp h
    cases heq
    rw [ih hw]
    simp [doubled, hc]

theorem written_classifyName (quote : Char) (name : String) (rest : List Char) :
    (classifyName name rest).written quote = name.toList := by
  unfold classifyName
  split
  · split <;> rfl
  · rfl
  · rfl

theorem signs_written : ∀ e ∈ signs, e.2.written '\'' = e.1 ∧ ∀ c ∈ e.1, isBlank c = false := by
  have hall : (signs.all fun e => e.2.written '\'' == e.1 && e.1.all fun c => !isBlank c) = true := by decide
  intro e he
  have hsign := List.all_eq_true.mp hall e he
  simp only [Bool.and_eq_true, beq_iff_eq, List.all_eq_true, Bool.not_eq_true'] at hsign
  exact hsign

/-- What a text begins with: a token as it is written, with no blank at its end, and then `after`. -/
structure Begins (cs : List Char) (t : Token) (after : List Char) (part : List Char) : Prop where
  whole : cs = part ++ after
  written : t.IsWritten part
  tight : EndsTight (String.ofList part)

theorem Begins.ne_nil {cs after part : List Char} {t : Token} (h : Begins cs t after part) : part ≠ [] := by
  obtain ⟨ds, d, heq, -⟩ := h.tight
  rw [String.toList_ofList] at heq
  rw [heq]
  simp

/-- White space behind a token is no part of it. -/
theorem Begins.rdropWhile_append {cs after part blanks : List Char} {t : Token} (h : Begins cs t after part)
    (hblanks : ∀ c ∈ blanks, isBlank c = true) : (part ++ blanks).rdropWhile isBlank = part := by
  obtain ⟨ds, d, heq, hd⟩ := h.tight
  rw [String.toList_ofList] at heq
  rw [List.rdropWhile, List.reverse_append,
    List.dropWhile_append_of_pos fun c hc => hblanks c (List.mem_reverse.mp hc), heq, List.reverse_append,
    List.reverse_singleton, List.singleton_append, List.dropWhile_cons_of_neg (by simp [hd])]
  simp

theorem begins_of_word {cs name after : List Char} {t : Token} (hwhole : name ++ after = cs)
    (hname : Tight (String.ofList name)) (ht : ∀ quote, t.written quote = name) : Begins cs t after name :=
  ⟨hwhole.symm, .of_forall ht, hname.ends⟩

theorem begins_nameLexeme (operand : Bool) {c : Char} (rest : List Char) (h : isNameStart c = true) :
    ∃ part, Begins (c :: rest) (nameLexeme operand (c :: rest)).1 (nameLexeme operand (c :: rest)).2 part := by
  have hfirst : IsNCName (readName (c :: rest)).1 := isNCName_readName rest h
  have hname : IsQName (readQName (c :: rest)).1 := isQName_readQName rest h
  have hwhole := (quoteless_readName (c :: rest)).whole
  unfold nameLexeme
  split
  rename_i first after hr
  rw [hr] at hfirst hwhole
  split
  · refine ⟨first, begins_of_word hwhole (.of_isQName ?_) fun _ => String.toList_ofList⟩
    rw [String.toList_ofList]
    exact .inl hfirst
  · split
    · rename_i rest'
      refine ⟨first ++ [':', '*'], begins_of_word ?_ (.of_nameTest ?_) fun _ => String.toList_ofList⟩
      · rw [List.append_assoc]
        exact hwhole
      · refine .inr (.inl ⟨first, hfirst, ?_⟩)
        rw [String.toList_ofList]
    · refine ⟨(readQName (c :: rest)).1, begins_of_word (quoteless_readQName _).whole (.of_isQName ?_) fun quote => ?_⟩
      · rw [String.toList_ofList]
        exact hname
      · rw [written_classifyName, String.toList_ofList]

theorem begins_literal {quote : Char} {cs v after : List Char} (hquote : isQuote quote = true)
    (h : closeLiteral .doubled quote cs = some (v, after)) :
    Begins (quote :: cs) (.literal (String.ofList v)) after (quote :: (doubled quote v ++ [quote])) where
  whole := by
    rw [closeLiteral_written h]
    simp
  written := by
    refine ⟨quote, hquote, ?_⟩
    rw [Token.written, String.toList_ofList]
  tight := by
    refine ⟨quote :: doubled quote v, quote, ?_, (quotes_stop hquote).2.2.1⟩
    rw [String.toList_ofList]
    rfl

theorem begins_variable {d : Char} (more : List Char) (hd : isNameStart d = true) :
    Begins ('$' :: d :: more) (.variableName (String.ofList (readQName (d :: more)).1)) (readQName (d :: more)).2
      ('$' :: (readQName (d :: more)).1) where
  whole := by rw [List.cons_append, (quoteless_readQName _).whole]
  written := by
    refine .of_forall fun quote => ?_
    rw [Token.written, String.toList_ofList]
  tight := by
    have hname : Tight (String.ofList (readQName (d :: more)).1) := by
      refine .of_isQName ?_
      rw [String.toList_ofList]
      exact isQName_readQName more hd
    rw [String.ofList_cons]
    exact hname.ends.append _

theorem begins_sign {cs after : List Char} {t : Token} (h : signLexeme signs cs = some (t, after)) :
    ∃ part, Begins cs t after part := by
  obtain ⟨spelling, hmem, heq⟩ := signLexeme_eq h
  obtain ⟨hwritten, hblank⟩ := signs_written _ hmem
  have htight : Tight (String.ofList spelling) := by
    refine .of_all ?_ ?_
    · rw [String.toList_ofList]
      exact signs_spelled _ hmem
    · rw [String.toList_ofList]
      exact hblank
  exact ⟨spelling, heq, ⟨'\'', rfl, hwritten.symm⟩, htight.ends⟩

/-- The token at the front of a text is written there in full. -/
theorem begins_lexeme {operand : Bool} {c : Char} {rest after : List Char} {t : Token}
    (h : lexeme .doubled operand c rest = .ok (t, after)) : ∃ part, Begins (c :: rest) t after part := by
  unfold lexeme at h
  split at h
  · rename_i hn
    cases h
    refine ⟨_, begins_of_word (quoteless_readNumber _).whole (.of_isNumber ?_) fun _ => String.toList_ofList⟩
    rw [String.toList_ofList]
    exact isNumber_readNumber hn
  split at h
  · rename_i hstar
    subst hstar
    have htight : Tight (String.ofList ['*']) := tight_of_check (by decide)
    cases operand with
    | true =>
      cases h
      exact ⟨['*'], begins_of_word rfl htight fun _ => rfl⟩
    | false =>
      cases h
      exact ⟨['*'], begins_of_word rfl htight fun _ => rfl⟩
  split at h
  · rename_i hquote
    have hisQuote : isQuote c = true := by simpa [isQuote] using hquote
    split at h
    · rename_i v last hv
      cases h
      exact ⟨_, begins_literal hisQuote hv⟩
    · cases h
  split at h
  · rename_i hdollar
    subst hdollar
    cases rest with
    | nil => cases h
    | cons d more =>
      dsimp only at h
      split at h
      · rename_i hd
        cases h
        exact ⟨_, begins_variable more hd⟩
      · cases h
  split at h
  · rename_i hs
    have hbegins := begins_nameLexeme operand rest hs
    rwa [Except.ok.inj h] at hbegins
  · split at h
    · rename_i found hf
      cases h
      exact begins_sign hf
    · cases h

/-- `Laid start cs ts`: from byte `start` on a text says `cs`, which is the tokens as they are written, each with
the white space behind it. -/
inductive Laid : Nat → List Char → List Spanned → Prop
  | done {start : Nat} : Laid start [] []
  | token {start : Nat} {part blanks after : List Char} {t : Token} {ts : List Spanned}
      (hbegins : Begins (part ++ (blanks ++ after)) t (blanks ++ after) part)
      (hblanks : ∀ c ∈ blanks, isBlank c = true) (hmore : Laid (start + byteLength (part ++ blanks)) after ts) :
      Laid start (part ++ (blanks ++ after)) (⟨t, start⟩ :: ts)

theorem takeWhile_append_skipBlanks (cs : List Char) : cs.takeWhile isBlank ++ skipBlanks cs = cs :=
  List.takeWhile_append_dropWhile

theorem byteLength_skipBlanks_le (cs : List Char) : byteLength (skipBlanks cs) ≤ byteLength cs := by
  have hwhole := congrArg byteLength (takeWhile_append_skipBlanks cs)
  rw [byteLength_append] at hwhole
  omega

theorem Scanned.laid {total : Nat} {operand : Bool} {cs : List Char} {ts : List Spanned}
    (h : Scanned .doubled total operand cs ts) (hle : byteLength cs ≤ total) :
    Laid (total - byteLength (skipBlanks cs)) (skipBlanks cs) ts := by
  induction h with
  | done hc =>
    rw [hc]
    exact .done
  | @more operand c cs rest after t ts hc hl _ ih =>
    have hskipped := byteLength_skipBlanks_le cs
    rw [hc] at hskipped ⊢
    obtain ⟨part, hbegins⟩ := begins_lexeme hl
    -- what follows the token is white space and then the next token
    have hafter := takeWhile_append_skipBlanks after
    have hbytes := congrArg byteLength hbegins.whole
    have hbytesAfter := congrArg byteLength hafter
    rw [byteLength_append] at hbytes hbytesAfter
    have hrest := ih (by omega)
    have hstart : total - byteLength (skipBlanks after) =
        total - byteLength (c :: rest) + byteLength (part ++ after.takeWhile isBlank) := by
      rw [byteLength_append]
      omega
    have hwhole := hbegins.whole
    rw [← hafter] at hwhole hbegins
    rw [hwhole] at hbegins
    rw [hstart] at hrest
    have hlaid := Laid.token hbegins (fun c hc => List.mem_takeWhile_imp hc) hrest
    rwa [← hwhole] at hlaid

/-- The offset of a token by its number, or the end of the text if there are no more. -/
def startOf (source : String) (ts : List Spanned) (i : Nat) : Nat :=
  (ts[i]?.map (·.offset)).getD source.utf8ByteSize

namespace Laid

variable {source : String} {before cs : List Char} {start : Nat} {ts : List Spanned}

theorem pairwise (h : Laid start cs ts) :
    ts.Pairwise (fun t u => t.offset < u.offset) ∧ ∀ t ∈ ts, start ≤ t.offset := by
  induction h with
  | done => exact ⟨.nil, nofun⟩
  | @token start part blanks after t ts hbegins hblanks hmore ih =>
    obtain ⟨hpairs, hfrom⟩ := ih
    have hpos : 0 < byteLength part := byteLength_pos hbegins.ne_nil
    rw [byteLength_append] at hfrom
    constructor
    · refine List.pairwise_cons.mpr ⟨fun u hu => ?_, hpairs⟩
      have hu := hfrom u hu
      simp only
      omega
    · intro u hu
      rcases List.mem_cons.mp hu with rfl | hu
      · exact Nat.le_refl _
      · have hu := hfrom u hu
        omega

theorem startOf_zero (h : Laid (byteLength before) cs ts) (hsource : source.toList = before ++ cs) :
    startOf source ts 0 = byteLength before := by
  cases h with
  | done =>
    rw [List.append_nil] at hsource
    show source.utf8ByteSize = byteLength before
    rw [utf8ByteSize_eq, hsource]
  | token => rfl

/-- A token is found at its offset, as it is written. -/
theorem written (h : Laid start cs ts) (hstart : start = byteLength before) (hsource : source.toList = before ++ cs)
    {i : Nat} {t : Spanned} (ht : ts[i]? = some t) :
    t.token.IsWritten
      ((String.Pos.Raw.extract source ⟨t.offset⟩ ⟨startOf source ts (i + 1)⟩).toList.rdropWhile isBlank) := by
  induction h generalizing before i with
  | done => cases ht
  | @token start part blanks after u ts hbegins hblanks hmore ih =>
    have hmoreStart : start + byteLength (part ++ blanks) = byteLength (before ++ (part ++ blanks)) := by
      rw [byteLength_append before, hstart]
    have hmoreSource : source.toList = before ++ (part ++ blanks) ++ after := by
      rw [hsource, List.append_assoc, List.append_assoc]
    cases i with
    | zero =>
      cases ht
      have hstop : startOf source (⟨u, start⟩ :: ts) (0 + 1) = byteLength before + byteLength (part ++ blanks) := by
        rw [← byteLength_append, ← startOf_zero (hmoreStart ▸ hmore) hmoreSource]
        rfl
      rw [hstop, hstart, extract_of_append hmoreSource, String.toList_ofList, hbegins.rdropWhile_append hblanks]
      exact hbegins.written
    | succ i => exact ih hmoreStart hmoreSource ht

theorem isPlace (h : Laid start cs ts) (hstart : start = byteLength before) (hsource : source.toList = before ++ cs)
    {t : Spanned} (ht : t ∈ ts) : IsPlace source t.offset := by
  induction h generalizing before with
  | done => cases ht
  | @token start part blanks after u ts hbegins hblanks hmore ih =>
    rcases List.mem_cons.mp ht with rfl | ht
    · rw [hstart]
      exact isPlace_of_append hsource
    · have hmoreStart : start + byteLength (part ++ blanks) = byteLength (before ++ (part ++ blanks)) := by
        rw [byteLength_append before, hstart]
      have hmoreSource : source.toList = before ++ (part ++ blanks) ++ after := by
        rw [hsource, List.append_assoc, List.append_assoc]
      exact ih hmoreStart hmoreSource ht

end Laid

/-- White space, and then the tokens of a text. -/
theorem laid_of_tokenize {source : String} {ts : List Spanned} (h : tokenize source = .ok ts) :
    ∃ blanks cs, source.toList = blanks ++ cs ∧ (∀ c ∈ blanks, isBlank c = true) ∧
      Laid (byteLength blanks) cs ts := by
  unfold tokenize tokenizeWith at h
  cases hscan : scan .doubled (byteLength source.toList) true source.toList with
  | error e =>
    rw [hscan] at h
    cases h
  | ok found =>
    rw [hscan] at h
    cases h
    have hlaid := (scanned_of_scan hscan).laid (Nat.le_refl _)
    have hwhole := takeWhile_append_skipBlanks source.toList
    have hbytes := congrArg byteLength hwhole
    rw [byteLength_append] at hbytes
    have hstart : byteLength source.toList - byteLength (skipBlanks source.toList) =
        byteLength (source.toList.takeWhile isBlank) := by omega
    rw [hstart] at hlaid
    exact ⟨_, _, hwhole.symm, fun c hc => List.mem_takeWhile_imp hc, hlaid⟩

theorem isPlace_of_scan {source : String} {operand : Bool} {before cs : List Char} {offset : Nat} {cause : SyntaxCause}
    (h : scan .doubled (byteLength source.toList) operand cs = .error (offset, cause))
    (hsource : source.toList = before ++ cs) : IsPlace source offset := by
  induction hn : cs.length using Nat.strongRecOn generalizing before cs operand with
  | ind n ih =>
    cases hc : skipBlanks cs with
    | nil =>
      rw [scan_nil hc] at h
      cases h
    | cons c rest =>
      have hwhole := takeWhile_append_skipBlanks cs
      rw [hc] at hwhole
      have hfrom : source.toList = (before ++ cs.takeWhile isBlank) ++ c :: rest := by
        rw [List.append_assoc, hwhole, hsource]
      cases hl : lexeme .doubled operand c rest with
      | error cause' =>
        rw [scan_error hc hl] at h
        cases h
        have hoffset : byteLength source.toList - byteLength (c :: rest) =
            byteLength (before ++ cs.takeWhile isBlank) := by
          rw [hfrom, byteLength_append, Nat.add_sub_cancel]
        rw [hoffset]
        exact isPlace_of_append hfrom
      | ok taken =>
        obtain ⟨t, after⟩ := taken
        rw [scan_ok hc hl] at h
        cases hmore : scan .doubled (byteLength source.toList) t.allowsOperand after with
        | ok more =>
          rw [hmore] at h
          cases h
        | error e =>
          rw [hmore] at h
          cases h
          obtain ⟨part, hbegins⟩ := begins_lexeme hl
          have hshorter := Text.length_skipBlanks_le cs
          have hlength := lexeme_length hl
          rw [hc, List.length_cons] at hshorter
          have hrest : source.toList = before ++ cs.takeWhile isBlank ++ part ++ after := by
            rw [hfrom, hbegins.whole, List.append_assoc _ part]
          exact ih after.length (by omega) hmore hrest rfl

theorem isPlace_offsetAt {source : String} {ts : List Spanned} (h : tokenize source = .ok ts) (rest : Nat) :
    IsPlace source (offsetAt source ts rest) := by
  obtain ⟨blanks, cs, hsource, -, hlaid⟩ := laid_of_tokenize h
  unfold offsetAt
  split
  · rename_i t ht
    exact hlaid.isPlace rfl hsource (List.mem_of_getElem? ht)
  · exact isPlace_of_append (List.append_nil _).symm

theorem isPlace_of_parse {source : String} {e : ParseError} (h : parse source = .error e) :
    IsPlace source e.offset := by
  unfold parse parseWith at h
  cases ht : tokenizeWith .doubled source with
  | error e' =>
    rw [ht] at h
    cases h
    unfold tokenizeWith at ht
    cases hscan : scan .doubled (byteLength source.toList) true source.toList with
    | ok found =>
      rw [hscan] at ht
      cases ht
    | error fault =>
      rw [hscan] at ht
      cases ht
      have hsource : source.toList = [] ++ source.toList := rfl
      exact isPlace_of_scan hscan hsource
  | ok found =>
    rw [ht] at h
    dsimp only [bind, Except.bind] at h
    split at h
    · cases h
      exact isPlace_offsetAt ht _
    · cases h
      exact isPlace_offsetAt ht _
    · cases h

/-- Nothing of a text is lost in its tokens: they come by rising offsets, in front of them is white space, and from
one offset to the next the text says the token as it is written, and white space. A text that is refused is at fault
at its end or at a character of it. -/
theorem tokens_written (source : String) :
    (∀ ts, tokenize source = .ok ts →
      ts.Pairwise (fun t u => t.offset < u.offset) ∧
      (∀ c ∈ (String.Pos.Raw.extract source 0 ⟨startOf source ts 0⟩).toList, isBlank c = true) ∧
      ∀ i (t : Spanned), ts[i]? = some t → t.token.IsWritten
        ((String.Pos.Raw.extract source ⟨t.offset⟩ ⟨startOf source ts (i + 1)⟩).toList.rdropWhile isBlank)) ∧
    ∀ e, parse source = .error e → IsPlace source e.offset := by
  refine ⟨fun ts hts => ?_, fun e he => isPlace_of_parse he⟩
  obtain ⟨blanks, cs, hsource, hblanks, hlaid⟩ := laid_of_tokenize hts
  refine ⟨hlaid.pairwise.1, ?_, fun i t ht => hlaid.written rfl hsource ht⟩
  have hfront : String.Pos.Raw.extract source ⟨byteLength []⟩ ⟨byteLength [] + byteLength blanks⟩ =
      String.ofList blanks := extract_of_append hsource
  have hstop : byteLength [] + byteLength blanks = startOf source ts 0 := by
    rw [hlaid.startOf_zero hsource]
    exact Nat.zero_add _
  rw [hstop] at hfront
  have hfront : String.Pos.Raw.extract source 0 ⟨startOf source ts 0⟩ = String.ofList blanks := hfront
  rw [hfront, String.toList_ofList]
  exact hblanks

/-- Where an operand is missing behind a name of two bytes and a literal with a doubled quote. -/
theorem tokens_written_unfinished :
    tokenize "é = 'it''s' +" = .ok [⟨.nameTest "é", 0⟩, ⟨.eq, 3⟩, ⟨.literal "it's", 5⟩, ⟨.plus, 13⟩] ∧
    (Token.literal "it's").IsWritten
      ((String.Pos.Raw.extract "é = 'it''s' +" ⟨5⟩ ⟨13⟩).toList.rdropWhile isBlank) ∧
    parse "é = 'it''s' +" = .error ⟨"é = 'it''s' +", 14, .unexpected none⟩ ∧ IsPlace "é = 'it''s' +" 14 := by
  have htokens : tokenize "é = 'it''s' +" =
      .ok [⟨.nameTest "é", 0⟩, ⟨.eq, 3⟩, ⟨.literal "it's", 5⟩, ⟨.plus, 13⟩] := by with_unfolding_all rfl
  have hfault : parse "é = 'it''s' +" = .error ⟨"é = 'it''s' +", 14, .unexpected none⟩ := by with_unfolding_all rfl
  obtain ⟨hread, hplace⟩ := tokens_written "é = 'it''s' +"
  exact ⟨htokens, (hread _ htokens).2.2 2 ⟨.literal "it's", 5⟩ rfl, hfault, hplace _ hfault⟩

end Schematron.XPath
