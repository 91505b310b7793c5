/-
  BitcoinSpoon.Webserver.Request — the name and the parameters of a request (`RequestURI`,
  `PrepareWebserverClient`, `code/Webserver.c`).

  `FirstReadyClient` has put a NUL behind what was received. The address behind the first
  space is compared with the end of the buffer to see that there is one, but `strnstr` finds
  none as NULL, and NULL and one is no greater: then address 1 is read. Without a second
  space the loop runs to the end of the buffer and keeps what ends in a '/'.

  All is right exactly if there is a space before any NUL and either a second one, with the
  escapes of every segment whole, or none and nothing before a '/' (`parsesRequest_iff`).
-/

import BitcoinSpoon.Webserver.Uri

namespace BitcoinSpoon.Webserver

open Wire Strings Connection

/-! ## The code -/

/-- What was received and where it is, with its NUL. `reallocf` gives no address as low as 1. -/
structure InputBuffer where
  inputBuffer : Nat
  received : Bytes
  allocated : 1 < inputBuffer

def InputBuffer.bytes (client : InputBuffer) : Bytes := client.received ++ [0]

def InputBuffer.endOf (client : InputBuffer) : Nat := client.inputBuffer + client.bytes.length

/-- `*p`, or `none` where `p` is not in the buffer. -/
def InputBuffer.read (client : InputBuffer) (p : Nat) : Option UInt8 :=
  if client.inputBuffer ≤ p then client.bytes[p - client.inputBuffer]? else none

/-- The bytes from `start` to `p`, all of them in the buffer. -/
def InputBuffer.readRange (client : InputBuffer) (start p : Nat) : Option Bytes :=
  if client.inputBuffer ≤ start ∧ p ≤ client.endOf then
    some ((client.bytes.drop (start - client.inputBuffer)).take (p - start))
  else none

/-- What `FirstReadyClient` returns a client for; `parameterCount` is the length. -/
structure WebserverClient where
  requestName : Option Bytes
  parameters : List Bytes

/-- `strnstr(in, " ", len)`, 0 being NULL. It stops at a NUL. -/
def firstSpace (client : InputBuffer) : Nat :=
  match (cString client.bytes).findIdx? (· = 0x20) with
  | some index => client.inputBuffer + index
  | none => 0

def requestURI (client : InputBuffer) : Option Nat :=
  if firstSpace client + 1 > client.endOf then none else some (firstSpace client + 1)

/-- `strncpy` pads with NULs, and one more is put behind. -/
def segmentBuffer (segment : Bytes) : Bytes :=
  cString segment ++ List.replicate (segment.length - (cString segment).length) 0 ++ [0]

/-- The first segment is the name. -/
def WebserverClient.add (client : WebserverClient) (dest : Bytes) : WebserverClient :=
  match client.requestName with
  | none => { client with requestName := some dest }
  | some _ => { client with parameters := client.parameters ++ [dest] }

/-- What is done at a '/' or a space. -/
def addSegment (buffer : InputBuffer) (start : Option Nat) (p : Nat) (client : WebserverClient) : Option WebserverClient :=
  match start with
  | some start => do
    let segment ← buffer.readRange start p
    let dest ← cleanURISpaces (segmentBuffer segment)
    some (client.add dest)
  | none => some client

/-- The loop of `PrepareWebserverClient` from `p` on, with as many bytes before the end. -/
def prepareLoop (buffer : InputBuffer) : Nat → Nat → Option Nat → WebserverClient → Option WebserverClient
  | 0, _, _, client => some client
  | rounds + 1, p, start, client => do
    let c ← buffer.read p
    if c = 0x2f ∨ c = 0x20 then
      let client ← addSegment buffer start p client
      if c = 0x20 then some client else prepareLoop buffer rounds (p + 1) none client
    else prepareLoop buffer rounds (p + 1) (start <|> some p) client

/-- `none` where bytes outside the buffer are read. -/
def prepareWebserverClient (buffer : InputBuffer) : Option WebserverClient :=
  match requestURI buffer with
  | none => some ⟨none, []⟩
  | some uri => prepareLoop buffer (buffer.endOf - uri) uri none ⟨none, []⟩

/-! ## What the request says -/

/-- What is behind the first space. -/
def behindSpace (received : Bytes) : Bytes := (received.dropWhile (· ≠ 0x20)).tail

/-- The text between the first and the second space. -/
def requestText (received : Bytes) : Bytes :=
  if 0x20 ∈ behindSpace received then (behindSpace received).takeWhile (· ≠ 0x20) else []

def segments (text : Bytes) : List Bytes := (text.splitOn 0x2f).filter (· ≠ [])

/-- Nothing outside the buffer is read, and the name and the parameters are the decoded
    segments. -/
def ParsesRequest (buffer : InputBuffer) : Prop :=
  let names := (segments (requestText buffer.received)).map fun segment => cString (decodeUri segment)
  ∃ client, prepareWebserverClient buffer = some client ∧
    client.requestName.map cString = names.head? ∧ client.parameters.map cString = names.tail

/-- There is a space before any NUL, and a second one behind segments that are decoded, or
    none and no '/' but at the beginning. -/
def IsRequest (received : Bytes) : Prop :=
  0x20 ∈ cString received ∧
    if 0x20 ∈ behindSpace received then ∀ segment ∈ segments (requestText received), wholeEscapes false (cString segment) = true
    else 0x2f ∉ (behindSpace received).dropWhile (· = 0x2f)

/-! ## A segment -/

variable {c : UInt8} {segment rest front behind before text more : Bytes} {buffer : InputBuffer}

theorem cString_noNul (buf : Bytes) : 0 ∉ cString buf := by
  intro h
  have hkept := List.all_takeWhile (l := buf) (p := fun x : UInt8 => decide (x ≠ 0))
  exact absurd (List.all_eq_true.1 hkept 0 h) (by decide)

theorem decodeUri_plain (h : ∀ hi lo tail, c = 0x25 → rest = hi :: lo :: tail → hexByte hi lo = none) :
    decodeUri (c :: rest) = (if c = 0x2b then 0x20 else c) :: decodeUri rest := by
  by_cases hlong : ∃ hi lo tail, c = 0x25 ∧ rest = hi :: lo :: tail
  · obtain ⟨hi, lo, tail, rfl, rfl⟩ := hlong
    rw [decodeUri, h hi lo tail rfl rfl]
    rfl
  · exact decodeUri.eq_3 c rest fun hi lo tail hc hrest => hlong ⟨hi, lo, tail, hc, hrest⟩

theorem hexByte_digits {hi lo byte : UInt8} (h : hexByte hi lo = some byte) : hi ≠ 0 ∧ lo ≠ 0 := by
  constructor
  · rintro rfl
    rw [(hexByte_nul lo).1] at h
    cases h
  · rintro rfl
    rw [(hexByte_nul hi).2] at h
    cases h

/-- A character that is no escape with what is behind it is none with less. -/
theorem decodeUri_cut (h : ∀ hi lo tail, c = 0x25 → rest = hi :: lo :: tail → hexByte hi lo = none)
    (ih : cString (decodeUri (cString rest)) = cString (decodeUri rest)) :
    cString (decodeUri (cString (c :: rest))) = cString (decodeUri (c :: rest)) := by
  rw [decodeUri_plain h]
  by_cases hc : c = 0
  · subst hc
    rfl
  have hcut : ∀ hi lo tail, c = 0x25 → cString rest = hi :: lo :: tail → hexByte hi lo = none := by
    intro hi lo tail hpercent hrest
    obtain ⟨more, hmore⟩ := List.takeWhile_prefix (l := rest) fun x : UInt8 => decide (x ≠ 0)
    rw [show rest.takeWhile (fun x => decide (x ≠ 0)) = hi :: lo :: tail from hrest] at hmore
    exact h hi lo (tail ++ more) hpercent hmore.symm
  have hkept : (if c = 0x2b then 0x20 else c) ≠ 0 := by
    split
    · decide
    · exact hc
  rw [cString_cons hc, decodeUri_plain hcut, cString_cons hkept, cString_cons hkept, ih]

/-- No escape goes over a NUL. -/
theorem cString_decodeUri (segment : Bytes) : cString (decodeUri (cString segment)) = cString (decodeUri segment) := by
  induction segment using decodeUri.induct with
  | case1 => rfl
  | case2 hi lo rest byte hbyte ih =>
    obtain ⟨hhi, hlo⟩ := hexByte_digits hbyte
    rw [cString_cons (by decide), cString_cons hhi, cString_cons hlo, decodeUri, decodeUri, hbyte]
    by_cases hzero : byte = 0
    · simp [hzero, cString_nul]
    · simp [cString_cons hzero, ih]
  | case3 hi lo rest hbyte ih =>
    refine decodeUri_cut (fun hi' lo' tail _ hrest => ?_) ih
    cases hrest
    exact hbyte
  | case4 c rest hshort ih => exact decodeUri_cut (fun hi lo tail hc hrest => (hshort hi lo tail hc hrest).elim) ih

/-- The buffer of a segment when it has been decoded. -/
def destOf (segment : Bytes) : Bytes := (cleanURISpaces (segmentBuffer segment)).getD []

theorem destOf_spec (segment : Bytes) :
    cleanURISpaces (segmentBuffer segment) = some (destOf segment) ∧
      (cString (destOf segment) = cString (decodeUri segment) ↔ wholeEscapes false (cString segment) = true) := by
  obtain ⟨result, hrun, -, hiff⟩ := cleanURISpaces_spec ⟨cString segment, cString_noNul segment⟩
    (List.replicate (segment.length - (cString segment).length) 0)
  have hbuffer : segmentBuffer segment =
      cString segment ++ 0 :: List.replicate (segment.length - (cString segment).length) 0 := by
    rw [segmentBuffer, List.append_assoc, ← List.replicate_succ', List.replicate_succ]
  have hdest : cleanURISpaces (segmentBuffer segment) = some result := by rw [hbuffer, hrun]
  rw [destOf, hdest, ← cString_decodeUri]
  exact ⟨rfl, hiff⟩

/-! ## The loop -/

def closeSegment (segment : Bytes) : List Bytes := if segment = [] then [] else [segment]

/-- The segments that the loop closes. -/
def closed : Bytes → Bytes → List Bytes
  | _, [] => []
  | segment, c :: rest =>
    if c = 0x20 then closeSegment segment
    else if c = 0x2f then closeSegment segment ++ closed [] rest
    else closed (segment ++ [c]) rest

theorem read_bytes (h : buffer.bytes = front ++ c :: rest) : buffer.read (buffer.inputBuffer + front.length) = some c := by
  rw [InputBuffer.read, if_pos (Nat.le_add_right _ _), Nat.add_sub_cancel_left, h]
  simp

theorem readRange_bytes (h : buffer.bytes = front ++ (segment ++ rest)) :
    buffer.readRange (buffer.inputBuffer + front.length) (buffer.inputBuffer + front.length + segment.length) = some segment := by
  have hroom : buffer.inputBuffer + front.length + segment.length ≤ buffer.endOf := by
    simp only [InputBuffer.endOf, h, List.length_append]
    omega
  rw [InputBuffer.readRange, if_pos ⟨Nat.le_add_right _ _, hroom⟩, Nat.add_sub_cancel_left, Nat.add_sub_cancel_left, h,
    List.drop_left, List.take_left]

/-- Where the open segment starts. -/
def startOf (buffer : InputBuffer) (front segment : Bytes) : Option Nat :=
  if segment = [] then none else some (buffer.inputBuffer + front.length)

theorem addSegment_spec (client : WebserverClient) (h : buffer.bytes = front ++ (segment ++ rest)) :
    addSegment buffer (startOf buffer front segment) (buffer.inputBuffer + front.length + segment.length) client =
      some (((closeSegment segment).map destOf).foldl WebserverClient.add client) := by
  by_cases hopen : segment = []
  · simp [addSegment, startOf, closeSegment, hopen]
  · simp [addSegment, startOf, closeSegment, hopen, readRange_bytes h, (destOf_spec segment).1]

/-- The loop behind `front` and the open segment adds what it closes. -/
theorem prepareLoop_spec (rest : Bytes) (front segment : Bytes) (client : WebserverClient)
    (h : buffer.bytes = front ++ (segment ++ rest)) :
    prepareLoop buffer rest.length (buffer.inputBuffer + front.length + segment.length) (startOf buffer front segment) client =
      some (((closed segment rest).map destOf).foldl WebserverClient.add client) := by
  induction rest generalizing front segment client with
  | nil => rfl
  | cons c rest ih =>
    have hread : buffer.read (buffer.inputBuffer + front.length + segment.length) = some c := by
      rw [Nat.add_assoc, ← List.length_append]
      exact read_bytes (h.trans (List.append_assoc _ _ _).symm)
    have hnext := ih (front ++ (segment ++ [c])) [] (((closeSegment segment).map destOf).foldl WebserverClient.add client)
      (by rw [h]; simp)
    simp only [List.length_append, List.length_cons, List.length_nil, ← Nat.add_assoc, Nat.zero_add, Nat.add_zero,
      startOf, if_true] at hnext
    rw [List.length_cons, prepareLoop, hread, Option.bind_eq_bind, Option.bind_some, closed]
    by_cases hcloses : c = 0x2f ∨ c = 0x20
    · rw [if_pos hcloses, addSegment_spec client h, Option.bind_eq_bind, Option.bind_some]
      by_cases hspace : c = 0x20
      · rw [if_pos hspace, if_pos hspace]
      · rw [if_neg hspace, if_neg hspace, if_pos (hcloses.resolve_right hspace), hnext, List.map_append, List.foldl_append]
    · obtain ⟨hslash, hspace⟩ := not_or.1 hcloses
      have hopen := ih front (segment ++ [c]) client (by rw [h]; simp)
      have hstart : (startOf buffer front segment <|> some (buffer.inputBuffer + front.length + segment.length)) =
          startOf buffer front (segment ++ [c]) := by
        by_cases hnil : segment = [] <;> simp [startOf, hnil]
      rw [if_neg hcloses, if_neg hspace, if_neg hslash, hstart, ← hopen, List.length_append, List.length_singleton, ← Nat.add_assoc]

/-- The first is the name and the others are the parameters. -/
theorem foldl_add (dests : List Bytes) : dests.foldl WebserverClient.add ⟨none, []⟩ = ⟨dests.head?, dests.tail⟩ := by
  have hparameters (name : Bytes) (dests parameters : List Bytes) :
      dests.foldl WebserverClient.add ⟨some name, parameters⟩ = ⟨some name, parameters ++ dests⟩ := by
    induction dests generalizing parameters with
    | nil => simp
    | cons dest dests ih => simp [WebserverClient.add, ih]
  cases dests with
  | nil => rfl
  | cons dest dests => exact (hparameters dest dests []).trans (by simp)

/-! ## The segments -/

theorem closed_space (h : 0x20 ∉ text) (segment : Bytes) :
    closed segment (text ++ 0x20 :: more) = ((text.splitOn 0x2f).modifyHead (segment ++ ·)).filter (· ≠ []) := by
  induction text generalizing segment with
  | nil => by_cases hnil : segment = [] <;> simp [closed, closeSegment, hnil]
  | cons c text ih =>
    obtain ⟨hc, htext⟩ := List.ne_and_not_mem_of_not_mem_cons h
    obtain ⟨first, parts, hsplit⟩ := List.exists_cons_of_ne_nil (List.splitOn_ne_nil 0x2f text)
    rw [List.cons_append, closed, if_neg (Ne.symm hc), List.splitOn_cons_eq_if_modifyHead]
    by_cases hslash : c = 0x2f
    · rw [if_pos hslash, if_pos (beq_iff_eq.2 hslash), ih htext, hsplit]
      by_cases hnil : segment = [] <;> simp [closeSegment, hnil]
    · rw [if_neg hslash, if_neg (fun h => hslash (beq_iff_eq.1 h)), ih htext, hsplit]
      simp

/-- A '/' closes what is open. -/
theorem closed_eq_nil_of_open (h : 0x20 ∉ rest) (hopen : segment ≠ []) : closed segment rest = [] ↔ 0x2f ∉ rest := by
  induction rest generalizing segment with
  | nil => simp [closed]
  | cons c rest ih =>
    obtain ⟨hc, hrest⟩ := List.ne_and_not_mem_of_not_mem_cons h
    rw [closed, if_neg (Ne.symm hc)]
    by_cases hslash : c = 0x2f
    · simp [hslash, closeSegment, hopen]
    · rw [if_neg hslash, ih hrest (by simp)]
      simp [Ne.symm hslash]

theorem closed_eq_nil (h : 0x20 ∉ rest) : closed [] rest = [] ↔ 0x2f ∉ rest.dropWhile (· = 0x2f) := by
  induction rest with
  | nil => simp [closed]
  | cons c rest ih =>
    obtain ⟨hc, hrest⟩ := List.ne_and_not_mem_of_not_mem_cons h
    rw [closed, if_neg (Ne.symm hc)]
    by_cases hslash : c = 0x2f
    · simp [hslash, closeSegment, ih hrest]
    · rw [if_neg hslash, closed_eq_nil_of_open hrest (by simp)]
      simp [hslash, Ne.symm hslash]

/-! ## The request -/

theorem cString_bytes (received : Bytes) : cString (received ++ [0]) = cString received := by
  induction received with
  | nil => rfl
  | cons c received ih =>
    by_cases hc : c = 0
    · subst hc
      rfl
    · rw [List.cons_append, cString_cons hc, cString_cons hc, ih]

theorem firstSpace_none (h : 0x20 ∉ cString buffer.received) : firstSpace buffer = 0 := by
  have hnone : (cString buffer.received).findIdx? (· = 0x20) = none :=
    List.findIdx?_eq_none_iff.2 fun c hc => decide_eq_false fun heq => h (heq ▸ hc)
  rw [firstSpace, InputBuffer.bytes, cString_bytes, hnone]

theorem firstSpace_some (hreceived : buffer.received = before ++ 0x20 :: rest) (hspace : 0x20 ∉ before) (hnul : 0 ∉ before) :
    firstSpace buffer = buffer.inputBuffer + before.length := by
  have hkept : ∀ c ∈ before, decide (c ≠ 0) = true := fun c hc => decide_eq_true fun heq => hnul (heq ▸ hc)
  have hnone : before.findIdx? (· = 0x20) = none :=
    List.findIdx?_eq_none_iff.2 fun c hc => decide_eq_false fun heq => hspace (heq ▸ hc)
  have hfound : (cString (before ++ 0x20 :: rest)).findIdx? (· = 0x20) = some before.length := by
    rw [cString, List.takeWhile_append_of_pos hkept, List.findIdx?_append, hnone, List.takeWhile_cons_of_pos (by decide),
      List.findIdx?_cons]
    simp
  rw [firstSpace, InputBuffer.bytes, cString_bytes, hreceived, hfound]

/-- Without a space the first address is 1. -/
theorem prepare_none (h : 0x20 ∉ cString buffer.received) : prepareWebserverClient buffer = none := by
  have halloc := buffer.allocated
  obtain ⟨rounds, hrounds⟩ : ∃ rounds, buffer.endOf - 1 = rounds + 1 := ⟨buffer.endOf - 2, by
    simp only [InputBuffer.endOf, InputBuffer.bytes, List.length_append, List.length_singleton]
    omega⟩
  have huri : requestURI buffer = some 1 := by
    rw [requestURI, firstSpace_none h, if_neg (by omega)]
  have hread : buffer.read 1 = none := if_neg (Nat.not_le.2 halloc)
  rw [prepareWebserverClient, huri]
  show prepareLoop buffer (buffer.endOf - 1) 1 none ⟨none, []⟩ = none
  rw [hrounds, prepareLoop, hread]
  rfl

theorem prepare_some (hreceived : buffer.received = before ++ 0x20 :: rest) (hspace : 0x20 ∉ before) (hnul : 0 ∉ before) :
    prepareWebserverClient buffer =
      some ⟨((closed [] (rest ++ [0])).map destOf).head?, ((closed [] (rest ++ [0])).map destOf).tail⟩ := by
  have hbytes : buffer.bytes = (before ++ [0x20]) ++ ([] ++ (rest ++ [0])) := by simp [InputBuffer.bytes, hreceived]
  have hend : buffer.endOf = buffer.inputBuffer + before.length + 1 + (rest ++ [0]).length := by
    rw [InputBuffer.endOf, hbytes]
    simp only [List.length_append, List.length_singleton, List.length_nil]
    omega
  have hfront : (before ++ [0x20]).length = before.length + 1 := by simp
  have hrun := prepareLoop_spec (rest ++ [0]) (before ++ [0x20]) [] ⟨none, []⟩ hbytes
  rw [hfront, List.length_nil, Nat.add_zero, ← Nat.add_assoc, foldl_add] at hrun
  have huri : requestURI buffer = some (buffer.inputBuffer + before.length + 1) := by
    rw [requestURI, firstSpace_some hreceived hspace hnul, if_neg (by omega)]
  rw [prepareWebserverClient, huri]
  show prepareLoop buffer (buffer.endOf - (buffer.inputBuffer + before.length + 1)) _ none _ = _
  rw [hend, Nat.add_sub_cancel_left]
  exact hrun

/-- A space before any NUL splits the request. -/
theorem space_splits {received : Bytes} (h : 0x20 ∈ cString received) :
    ∃ before rest, received = before ++ 0x20 :: rest ∧ 0x20 ∉ before ∧ 0 ∉ before := by
  obtain ⟨before, rest, hsplit, hspace⟩ := List.eq_append_cons_of_mem h
  have hnul : 0 ∉ before := fun hmem => cString_noNul received (hsplit ▸ List.mem_append_left _ hmem)
  obtain ⟨more, hmore⟩ := List.takeWhile_prefix (l := received) fun c : UInt8 => decide (c ≠ 0)
  refine ⟨before, rest ++ more, ?_, hspace, hnul⟩
  rw [← hmore, show received.takeWhile (fun c => decide (c ≠ 0)) = before ++ 0x20 :: rest from hsplit]
  simp

theorem behindSpace_split (hspace : 0x20 ∉ before) : behindSpace (before ++ 0x20 :: rest) = rest := by
  have hkept : ∀ c ∈ before, decide (c ≠ 0x20) = true := fun c hc => decide_eq_true fun heq => hspace (heq ▸ hc)
  rw [behindSpace, List.dropWhile_append_of_pos hkept, List.dropWhile_cons_of_neg (by decide), List.tail_cons]

/-- The same first and the same others. -/
theorem head_tail_iff {a b : List Bytes} : (a.head? = b.head? ∧ a.tail = b.tail) ↔ a = b := by
  cases a <;> cases b <;> simp

/-- What the segments kept are is what the request says exactly if each is decoded. -/
theorem names_iff (kept : List Bytes) :
    (((kept.map destOf).head?.map cString = (kept.map fun segment => cString (decodeUri segment)).head? ∧
        (kept.map destOf).tail.map cString = (kept.map fun segment => cString (decodeUri segment)).tail) ↔
      ∀ segment ∈ kept, wholeEscapes false (cString segment) = true) := by
  rw [← List.head?_map, List.map_tail, head_tail_iff, List.map_map, List.map_inj_left]
  exact forall₂_congr fun segment _ => (destOf_spec segment).2

/-- `PrepareWebserverClient` stays within the buffer and finds the segments exactly in these
    requests. -/
theorem parsesRequest_iff (buffer : InputBuffer) : ParsesRequest buffer ↔ IsRequest buffer.received := by
  rw [ParsesRequest, IsRequest]
  by_cases hspace : 0x20 ∈ cString buffer.received
  swap
  · simp [prepare_none hspace, hspace]
  obtain ⟨before, rest, hreceived, hbefore, hnul⟩ := space_splits hspace
  have hbehind : behindSpace buffer.received = rest := by rw [hreceived, behindSpace_split hbefore]
  rw [prepare_some hreceived hbefore hnul, requestText, hbehind]
  simp only [Option.some.injEq, exists_eq_left', hspace, true_and]
  by_cases hsecond : 0x20 ∈ rest
  · obtain ⟨text, more, rfl, htext⟩ := List.eq_append_cons_of_mem hsecond
    have hkept : ∀ c ∈ text, decide (c ≠ 0x20) = true := fun c hc => decide_eq_true fun heq => htext (heq ▸ hc)
    have htake : (text ++ 0x20 :: more).takeWhile (fun c => decide (c ≠ 0x20)) = text := by
      rw [List.takeWhile_append_of_pos hkept, List.takeWhile_cons_of_neg (by decide), List.append_nil]
    have hclosed : closed [] (text ++ 0x20 :: more ++ [0]) = segments text := by
      obtain ⟨first, parts, hsplit⟩ := List.exists_cons_of_ne_nil (List.splitOn_ne_nil 0x2f text)
      rw [List.append_assoc, List.cons_append, closed_space htext, segments, hsplit]
      rfl
    rw [if_pos hsecond, if_pos hsecond, htake, hclosed]
    exact names_iff _
  · -- nothing is between two spaces
    have hend : closed [] (rest ++ [0]) = [] ↔ 0x2f ∉ rest.dropWhile (· = 0x2f) := by
      rw [closed_eq_nil (by simp [hsecond]), List.dropWhile_append]
      cases rest.dropWhile (· = 0x2f) <;> simp
    rw [if_neg hsecond, if_neg hsecond, ← hend]
    cases closed [] (rest ++ [0]) <;> simp [segments]

/-- Only the empty line. -/
theorem not_parsesRequest :
    ¬ ∀ buffer : InputBuffer, [0x0d, 0x0a, 0x0d, 0x0a] <:+: buffer.received → ParsesRequest buffer := by
  intro h
  obtain ⟨client, hclient, -⟩ := h ⟨4096, [0x0d, 0x0a, 0x0d, 0x0a], by decide⟩ (List.infix_refl _)
  have hnone : prepareWebserverClient ⟨4096, [0x0d, 0x0a, 0x0d, 0x0a], by decide⟩ = none := by decide +kernel
  rw [hnone] at hclient
  cases hclient

end BitcoinSpoon.Webserver
