import TypegoSdk.Crow.Text
import TypegoSdk.Lib.Find

/-!
# Multipart messages (include/crow/multipart.h)

`message` is parsed from a body by looking for separators, one after the other, and
cutting the text there. A separator that is not found gives `npos`, and the code goes
on to compute with it. `dump` writes a message; what is written is parsed to the parts
it was written from.
-/

namespace TypegoSdk.Crow
open TypegoSdk.Lib

/-! ### Positions in a string -/

/- `substr(0, found)`, where `npos` stands for all of it. -/
def upTo (s : Bytes) (found : Option ℕ) : Bytes :=
  match found with
  | none => s
  | some i => s.take i

/- `found + n`; `npos` is 2^64 - 1, and the sum is modulo 2^64. -/
def behind (found : Option ℕ) (n : ℕ) : ℕ :=
  match found with
  | none => n - 1
  | some i => i + n

namespace Multipart

/-- `std::out_of_range`, `bad_request` with its text, and a dereferenced end of a map. The
loops have a bound on their rounds. -/
inductive Fault where
  | outOfRange
  | badRequest (what : String)
  | undefined
  | fuel
  deriving DecidableEq

/- `substr(pos)`. -/
def substrFrom (s : Bytes) (pos : ℕ) : Except Fault Bytes :=
  if pos ≤ s.length then .ok (s.drop pos) else .error .outOfRange

/-! ### Parts and their parsing -/

def crlf : Bytes := [13, 10]

def dd : Bytes := bytes "--"

/-- The parameters in the order in which they were put into the map. -/
structure Header where
  key : Bytes
  value : Bytes
  params : List (Bytes × Bytes)
  deriving DecidableEq

structure Part where
  headers : List Header
  body : Bytes
  deriving DecidableEq

/- A pair of quotes around the string is taken away. -/
def trim (s : Bytes) : Bytes :=
  if s.length > 1 ∧ s.head? = some quote ∧ s.getLast? = some quote then (s.drop 1).take (s.length - 2)
  else s

/- `emplace` keeps the value that a key has. -/
def emplace (params : List (Bytes × Bytes)) (key value : Bytes) : List (Bytes × Bytes) :=
  if (params.lookup key).isSome then params else params ++ [(key, value)]

/-- The text up to the next "; ", and what is left of the line behind it. -/
def cutSemicolon (line : Bytes) : Bytes × Bytes :=
  match find (bytes "; ") line with
  | none => (line, [])
  | some i => (line.take i, line.drop (i + 2))

/- The loop over the parameters of a line. -/
def parseParams : ℕ → Bytes → List (Bytes × Bytes) → Except Fault (List (Bytes × Bytes))
  | 0, _, _ => .error .fuel
  | fuel + 1, line, params =>
    if line = [] then .ok params
    else
      let (param, rest) := cutSemicolon line
      let split := find (bytes "=") param
      do
        let value ← substrFrom param (behind split 1)
        parseParams fuel rest (emplace params (upTo param split) (trim value))

/- One round of the loop over the lines. -/
def parseLine (line : Bytes) : Except Fault Header :=
  if line = [] then .ok ⟨[], [], []⟩
  else
    let (header, rest) := cutSemicolon line
    let split := find (bytes ": ") header
    do
      let value ← substrFrom header (behind split 2)
      let params ← parseParams (rest.length + 1) rest []
      .ok ⟨upTo header split, value, params⟩

def parseSectionHead : ℕ → Bytes → Except Fault (List Header)
  | 0, _ => .error .fuel
  | fuel + 1, lines =>
    if lines = [] then .ok []
    else
      let found := find crlf lines
      do
        let header ← parseLine (upTo lines found)
        let headers ← parseSectionHead fuel (lines.drop (behind found 2))
        .ok (header :: headers)

/- `length() - 2` of a text of less than two bytes is more than its length. -/
def parseSection (text : Bytes) : Except Fault Part :=
  let found := find (crlf ++ crlf) text
  let headLine := text.take (behind found 2)
  let rest := text.drop (behind found 4)
  do
    let headers ← parseSectionHead (headLine.length + 1) headLine
    .ok ⟨headers, if rest.length < 2 then rest else rest.take (rest.length - 2)⟩

/- `std::toupper` of the C locale. -/
def toUpper (c : UInt8) : UInt8 := if 'a'.toUInt8 ≤ c ∧ c ≤ 'z'.toUInt8 then c - 32 else c

def stringEquals (l r : Bytes) : Bool := l.map toUpper == r.map toUpper

/-- `find` of an unordered multimap: one of the entries with the key, if there is one. -/
structure Multimap where
  find {α : Type} : (α → Bool) → List α → Option α
  find_some {α : Type} {p : α → Bool} {l : List α} {x : α} : find p l = some x → x ∈ l ∧ p x = true
  find_none {α : Type} {p : α → Bool} {l : List α} : find p l = none → ∀ x ∈ l, p x = false

section
variable (M : Multimap)

/- `get_header_object`, with the empty header if there is none. -/
def Part.getHeaderObject (part : Part) (key : Bytes) : Header :=
  (M.find (fun h => stringEquals h.key key) part.headers).getD ⟨[], [], []⟩

def Part.name (part : Part) : Option Bytes :=
  (part.getHeaderObject M (bytes "Content-Disposition")).params.lookup (bytes "name")

def parseBody (boundary : Bytes) : ℕ → Bytes → Except Fault (List Part)
  | 0, _ => .error .fuel
  | fuel + 1, body =>
    if body = crlf then .ok []
    else
      match find (dd ++ boundary) body with
      | none =>
        .error (.badRequest "Unable to find delimiter in multipart message. Probably ill-formed body")
      | some found =>
        let text := body.take found
        let rest := body.drop (found + (dd ++ boundary).length + 2)
        if text = [] then parseBody boundary fuel rest
        else do
          let part ← parseSection text
          if part.name M = none then .error .undefined
          else do
            let parts ← parseBody boundary fuel rest
            .ok (part :: parts)

def getBoundary (header : Bytes) : Bytes :=
  match find (bytes "boundary=") header with
  | none => []
  | some found =>
    let text := header.drop (found + 9)
    if text.head? = some quote then (text.drop 1).take (text.length - 2) else text

/-- The constructor from a request: the header `Content-Type` and the body. -/
def message (contentType body : Bytes) : Except Fault (List Part) :=
  let boundary := getBoundary contentType
  if boundary = [] then .error (.badRequest "Empty boundary in multipart message")
  else parseBody M boundary (body.length + 1) body

end

/-! ### Writing -/

def pad (s : Bytes) : Bytes := quote :: (s ++ [quote])

def dumpParam (p : Bytes × Bytes) : Bytes := bytes "; " ++ (p.1 ++ (bytes "=" ++ pad p.2))

def dumpHeader (h : Header) : Bytes :=
  h.key ++ (bytes ": " ++ (h.value ++ (h.params.flatMap dumpParam ++ crlf)))

def dumpPart (part : Part) : Bytes :=
  part.headers.flatMap dumpHeader ++ (crlf ++ (part.body ++ crlf))

def dumpMessage (boundary : Bytes) : List Part → Bytes
  | [] => dd ++ boundary ++ (dd ++ crlf)
  | part :: parts => dd ++ boundary ++ (crlf ++ (dumpPart part ++ dumpMessage boundary parts))

/-! ### What can be written and read back -/

/-- None of these bytes is in the text. -/
def Without (cs : List UInt8) (s : Bytes) : Prop := ∀ c ∈ cs, c ∉ s

instance (cs : List UInt8) (s : Bytes) : Decidable (Without cs s) :=
  List.decidableBAll _ cs

/-- The texts of a header hold none of the separators that stand behind them. -/
structure Header.Clean (h : Header) : Prop where
  key : Without [':'.toUInt8, ';'.toUInt8, 13] h.key
  value : Without [';'.toUInt8, 13] h.value
  names : ∀ p ∈ h.params, Without ['='.toUInt8, ';'.toUInt8, 13] p.1
  values : ∀ p ∈ h.params, Without [';'.toUInt8, 13] p.2
  distinct : (h.params.map Prod.fst).Nodup

/-- A part with a header, and without the delimiter. -/
structure Part.Clean (boundary : Bytes) (part : Part) : Prop where
  headers : ∀ h ∈ part.headers, h.Clean
  some_header : part.headers ≠ []
  delimiter : find (dd ++ boundary) (dumpPart part) = none

/-! ### The parameters of a line -/

theorem ok_bind {α β : Type} (a : α) (f : α → Except Fault β) : (.ok a >>= f) = f a := rfl

theorem trim_pad (s : Bytes) : trim (pad s) = s := by
  have hlast : (pad s).getLast? = some quote := List.getLast?_concat (l := quote :: s)
  have hhead : (pad s).head? = some quote := rfl
  have hlength : (pad s).length = s.length + 2 := by simp [pad]
  rw [trim, if_pos ⟨by omega, hhead, hlast⟩, hlength]
  simp [pad]

/- The parameters without the separator before the first. -/
def joined : List (Bytes × Bytes) → Bytes
  | [] => []
  | p :: ps => p.1 ++ (bytes "=" ++ (pad p.2 ++ ps.flatMap dumpParam))

theorem cutSemicolon_params {s : Bytes} (h : ';'.toUInt8 ∉ s) (ps : List (Bytes × Bytes)) :
    cutSemicolon (s ++ ps.flatMap dumpParam) = (s, joined ps) := by
  have hsep : bytes "; " = ';'.toUInt8 :: bytes " " := rfl
  cases ps with
  | nil =>
    rw [List.flatMap_nil, List.append_nil, cutSemicolon, hsep, find_absent h]
    rfl
  | cons p ps =>
    have hfound : find (bytes "; ") (s ++ (p :: ps).flatMap dumpParam) = some s.length := by
      rw [List.flatMap_cons, dumpParam, hsep, List.append_assoc]
      exact find_sep h _ _
    rw [cutSemicolon, hfound]
    simp only [List.take_left, List.drop_length_add_append, List.flatMap_cons, dumpParam, joined]
    rw [hsep]
    simp [bytes]

theorem emplace_new {params : List (Bytes × Bytes)} {key value : Bytes}
    (h : key ∉ params.map Prod.fst) : emplace params key value = params ++ [(key, value)] := by
  have hnone : params.lookup key = none := by
    rw [List.lookup_eq_none_iff]
    intro p hp
    have hne : key ≠ p.1 := fun heq => h (List.mem_map.mpr ⟨p, hp, heq.symm⟩)
    simpa using hne
  rw [emplace, hnone]
  rfl

theorem parseParams_joined {ps : List (Bytes × Bytes)}
    (hnames : ∀ p ∈ ps, Without ['='.toUInt8, ';'.toUInt8, 13] p.1)
    (hvalues : ∀ p ∈ ps, Without [';'.toUInt8, 13] p.2) (done : List (Bytes × Bytes))
    (hdistinct : ((done ++ ps).map Prod.fst).Nodup) (fuel : ℕ) (hfuel : ps.length < fuel) :
    parseParams fuel (joined ps) done = .ok (done ++ ps) := by
  induction ps generalizing done fuel with
  | nil =>
    obtain ⟨fuel, rfl⟩ := Nat.exists_eq_succ_of_ne_zero (Nat.ne_of_gt hfuel)
    simp [parseParams, joined]
  | cons p ps ih =>
    obtain ⟨fuel, rfl⟩ := Nat.exists_eq_succ_of_ne_zero (Nat.ne_of_gt (Nat.zero_lt_of_lt hfuel))
    have hp := hnames p (List.mem_cons_self ..)
    have hv := hvalues p (List.mem_cons_self ..)
    have hsemi : ';'.toUInt8 ∉ p.1 ++ (bytes "=" ++ pad p.2) := by
      have hq : ';'.toUInt8 ≠ quote := by decide
      have heq : ';'.toUInt8 ∉ bytes "=" := by decide
      simp [pad, hp ';'.toUInt8 (by simp), hv ';'.toUInt8 (by simp), hq, heq]
    have hcut : cutSemicolon (joined (p :: ps)) = (p.1 ++ (bytes "=" ++ pad p.2), joined ps) := by
      rw [← cutSemicolon_params hsemi ps, joined]
      simp only [List.append_assoc]
    have hsplit : find (bytes "=") (p.1 ++ (bytes "=" ++ pad p.2)) = some p.1.length :=
      find_sep (hp '='.toUInt8 (by simp)) [] _
    have hvalue : substrFrom (p.1 ++ (bytes "=" ++ pad p.2)) (behind (some p.1.length) 1) =
        .ok (pad p.2) := by
      rw [substrFrom, behind, if_pos (by simp [bytes]), List.drop_length_add_append]
      rfl
    have hnew : p.1 ∉ done.map Prod.fst := by
      rw [List.map_append, List.nodup_append] at hdistinct
      exact fun hmem => hdistinct.2.2 _ hmem p.1 (by simp) rfl
    have hne : joined (p :: ps) ≠ [] := by
      have hlength : (joined (p :: ps)).length ≠ 0 := by simp [joined, pad]
      exact fun hnil => hlength (by rw [hnil]; rfl)
    rw [parseParams, if_neg hne, hcut]
    simp only [hsplit, hvalue, ok_bind, upTo, List.take_left, trim_pad, emplace_new hnew]
    have happend : done ++ p :: ps = done ++ [(p.1, p.2)] ++ ps := by simp
    rw [happend] at hdistinct ⊢
    rw [List.length_cons] at hfuel
    exact ih (fun q hq => hnames q (List.mem_cons_of_mem _ hq))
      (fun q hq => hvalues q (List.mem_cons_of_mem _ hq)) _ hdistinct fuel (by omega)

/-! ### The lines of a section -/

/- A line without its end. -/
def headerLine (h : Header) : Bytes :=
  h.key ++ (bytes ": " ++ h.value) ++ h.params.flatMap dumpParam

theorem dumpHeader_eq (h : Header) : dumpHeader h = headerLine h ++ crlf := by
  simp [dumpHeader, headerLine]

theorem length_params (ps : List (Bytes × Bytes)) : ps.length ≤ (ps.flatMap dumpParam).length := by
  induction ps with
  | nil => exact Nat.le_refl _
  | cons p ps ih =>
    have hone : 1 ≤ (dumpParam p).length := by
      simp only [dumpParam, pad, List.length_append, List.length_cons]
      omega
    rw [List.flatMap_cons, List.length_append, List.length_cons]
    omega

theorem length_joined (ps : List (Bytes × Bytes)) : ps.length ≤ (joined ps).length := by
  cases ps with
  | nil => exact Nat.le_refl _
  | cons p ps =>
    have hrest := length_params ps
    simp only [joined, pad, List.length_append, List.length_cons]
    omega

theorem headerLine_ne_nil (h : Header) : headerLine h ≠ [] := by
  have hlength : (headerLine h).length ≠ 0 := by simp [headerLine, bytes]
  exact fun hnil => hlength (by rw [hnil]; rfl)

theorem parseLine_dump {h : Header} (hc : h.Clean) : parseLine (headerLine h) = .ok h := by
  have hsemi : ';'.toUInt8 ∉ h.key ++ (bytes ": " ++ h.value) := by
    have hcolon : ';'.toUInt8 ∉ bytes ": " := by decide
    simp [hc.key ';'.toUInt8 (by simp), hc.value ';'.toUInt8 (by simp), hcolon]
  have hsplit : find (bytes ": ") (h.key ++ (bytes ": " ++ h.value)) = some h.key.length :=
    find_sep (hc.key ':'.toUInt8 (by simp)) [32] _
  have hvalue : substrFrom (h.key ++ (bytes ": " ++ h.value)) (behind (some h.key.length) 2) =
      .ok h.value := by
    rw [substrFrom, behind, if_pos (by simp [bytes]), List.drop_length_add_append]
    rfl
  have hparams := parseParams_joined hc.names hc.values [] hc.distinct
    ((joined h.params).length + 1) (Nat.lt_succ_of_le (length_joined _))
  rw [parseLine, if_neg (headerLine_ne_nil h), headerLine, cutSemicolon_params hsemi]
  simp only [hsplit, hvalue, hparams, ok_bind, upTo, List.take_left, List.nil_append]

theorem headerLine_no_cr {h : Header} (hc : h.Clean) : 13 ∉ headerLine h := by
  have hparam : ∀ p ∈ h.params, 13 ∉ dumpParam p := by
    intro p hp
    have hsep : (13 : UInt8) ∉ bytes "; " := by decide
    have heq : (13 : UInt8) ∉ bytes "=" := by decide
    have hquote : (13 : UInt8) ≠ quote := by decide
    simp [dumpParam, pad, hc.names p hp 13 (by simp), hc.values p hp 13 (by simp), hsep, heq, hquote]
  have hcolon : (13 : UInt8) ∉ bytes ": " := by decide
  simp only [headerLine, List.mem_append, List.mem_flatMap, not_or, not_exists, not_and]
  exact ⟨⟨hc.key 13 (by simp), hcolon, hc.value 13 (by simp)⟩, hparam⟩

theorem parseSectionHead_dump {headers : List Header} (hc : ∀ h ∈ headers, h.Clean) (fuel : ℕ)
    (hfuel : headers.length < fuel) :
    parseSectionHead fuel (headers.flatMap dumpHeader) = .ok headers := by
  induction headers generalizing fuel with
  | nil =>
    obtain ⟨fuel, rfl⟩ := Nat.exists_eq_succ_of_ne_zero (Nat.ne_of_gt hfuel)
    rfl
  | cons h headers ih =>
    obtain ⟨fuel, rfl⟩ := Nat.exists_eq_succ_of_ne_zero (Nat.ne_of_gt (Nat.zero_lt_of_lt hfuel))
    have hclean := hc h (List.mem_cons_self ..)
    have htext : (h :: headers).flatMap dumpHeader =
        headerLine h ++ (crlf ++ headers.flatMap dumpHeader) := by
      rw [List.flatMap_cons, dumpHeader_eq, List.append_assoc]
    have hfound : find crlf (headerLine h ++ (crlf ++ headers.flatMap dumpHeader)) =
        some (headerLine h).length := find_sep (headerLine_no_cr hclean) [10] _
    have hdrop : (headerLine h ++ (crlf ++ headers.flatMap dumpHeader)).drop
        ((headerLine h).length + 2) = headers.flatMap dumpHeader := by
      rw [List.drop_length_add_append]
      rfl
    have hne : headerLine h ++ (crlf ++ headers.flatMap dumpHeader) ≠ [] := by
      simp [headerLine_ne_nil]
    rw [List.length_cons] at hfuel
    rw [htext, parseSectionHead, if_neg hne, hfound]
    simp only [upTo, behind, List.take_left, hdrop, parseLine_dump hclean, ok_bind,
      ih (fun h' hh => hc h' (List.mem_cons_of_mem _ hh)) fuel (by omega)]

/-- The first empty line is the one behind the headers. -/
theorem find_blank {h : Header} {headers : List Header} (hc : ∀ g ∈ h :: headers, g.Clean)
    (t : Bytes) : find (crlf ++ crlf) ((h :: headers).flatMap dumpHeader ++ (crlf ++ t)) =
      some (((h :: headers).flatMap dumpHeader).length - 2) := by
  have hline := headerLine_no_cr (hc h (List.mem_cons_self ..))
  induction headers generalizing h with
  | nil =>
    have hfound := find_sep hline [10, 13, 10] t
    have htext : [h].flatMap dumpHeader ++ (crlf ++ t) =
        headerLine h ++ (13 :: [10, 13, 10] ++ t) := by
      simp [dumpHeader_eq, crlf]
    have hlength : ([h].flatMap dumpHeader).length - 2 = (headerLine h).length := by
      simp [dumpHeader_eq, crlf]
    rw [htext, hlength]
    exact hfound
  | cons g headers ih =>
    have hg := headerLine_no_cr (hc g (by simp))
    have hrest := ih (fun k hk => hc k (List.mem_cons_of_mem _ hk)) hg
    obtain ⟨c, line, hcons⟩ := List.exists_cons_of_ne_nil (headerLine_ne_nil g)
    rw [hcons, List.mem_cons, not_or] at hg
    have htext : (h :: g :: headers).flatMap dumpHeader ++ (crlf ++ t) =
        headerLine h ++ (13 :: ([10] ++ ((g :: headers).flatMap dumpHeader ++ (crlf ++ t)))) := by
      rw [List.flatMap_cons, dumpHeader_eq]
      simp [crlf]
    -- the end of the first line is followed by the first byte of the next one
    have hend : (13 :: ([10] ++ ((g :: headers).flatMap dumpHeader ++ (crlf ++ t)))).take
        (crlf ++ crlf).length ≠ crlf ++ crlf := by
      have hfour : (crlf ++ crlf).length = 4 := rfl
      rw [List.flatMap_cons, dumpHeader_eq, hcons, hfour]
      simp only [crlf, List.cons_append, List.nil_append, List.take_succ_cons, ne_eq,
        List.cons.injEq, true_and, not_and]
      exact fun heq => absurd heq.symm hg.1
    have hnext := find_skip (s := [10]) (p := (13 : UInt8)) (by decide) [10, 13, 10]
      ((g :: headers).flatMap dumpHeader ++ (crlf ++ t))
    have hlong : 2 ≤ ((g :: headers).flatMap dumpHeader).length := by
      simp [dumpHeader_eq, crlf]
      omega
    have hpat : crlf ++ crlf = 13 :: [10, 13, 10] := rfl
    rw [htext, hpat, find_skip hline, find, ← hpat, if_neg hend, hpat, hnext, ← hpat, hrest]
    simp only [Option.map_some, Option.some.injEq, List.length_singleton]
    have hall : (h :: g :: headers).flatMap dumpHeader =
        headerLine h ++ crlf ++ (g :: headers).flatMap dumpHeader := by
      rw [List.flatMap_cons, dumpHeader_eq]
    rw [hall, List.length_append, List.length_append]
    have hcrlf : crlf.length = 2 := rfl
    omega

theorem dumpHeaders_snoc {headers : List Header} (h : headers ≠ []) :
    ∃ s, headers.flatMap dumpHeader = s ++ crlf := by
  obtain ⟨front, last, rfl⟩ := List.eq_nil_or_concat headers |>.resolve_left h
  refine ⟨front.flatMap dumpHeader ++ headerLine last, ?_⟩
  simp [dumpHeader_eq]

theorem length_headers (headers : List Header) :
    headers.length ≤ (headers.flatMap dumpHeader).length := by
  induction headers with
  | nil => exact Nat.le_refl _
  | cons h headers ih =>
    rw [List.flatMap_cons, List.length_append, dumpHeader_eq, List.length_append, List.length_cons]
    have hcrlf : crlf.length = 2 := rfl
    omega

theorem parseSection_dump {part : Part} (hc : ∀ h ∈ part.headers, h.Clean)
    (hsome : part.headers ≠ []) : parseSection (dumpPart part) = .ok part := by
  have hfound : find (crlf ++ crlf) (dumpPart part) =
      some ((part.headers.flatMap dumpHeader).length - 2) := by
    obtain ⟨h, headers, hcons⟩ := List.exists_cons_of_ne_nil hsome
    rw [hcons] at hc
    rw [dumpPart, hcons]
    exact find_blank hc _
  have hlong : (part.headers.flatMap dumpHeader).length - 2 + 2 =
      (part.headers.flatMap dumpHeader).length := by
    obtain ⟨s, hs⟩ := dumpHeaders_snoc hsome
    rw [hs, List.length_append]
    rfl
  have hhead : (dumpPart part).take ((part.headers.flatMap dumpHeader).length - 2 + 2) =
      part.headers.flatMap dumpHeader := by
    rw [hlong, dumpPart, List.take_left]
  have hrest : (dumpPart part).drop ((part.headers.flatMap dumpHeader).length - 2 + 4) =
      part.body ++ crlf := by
    have hfour : (part.headers.flatMap dumpHeader).length - 2 + 4 =
        (part.headers.flatMap dumpHeader).length + 2 := by omega
    rw [hfour, dumpPart, List.drop_length_add_append]
    rfl
  have hbody : ¬ (part.body ++ crlf).length < 2 ∧
      (part.body ++ crlf).take ((part.body ++ crlf).length - 2) = part.body := by
    have hlength : (part.body ++ crlf).length = part.body.length + 2 := List.length_append
    refine ⟨by omega, ?_⟩
    rw [hlength, Nat.add_sub_cancel, List.take_left]
  rw [parseSection, hfound]
  simp only [behind, hhead, hrest, hbody.1, hbody.2, if_false, ok_bind,
    parseSectionHead_dump hc _ (Nat.lt_succ_of_le (length_headers _))]

/-! ### The message -/

section
variable (M : Multimap)

/- What is left of a written message behind a delimiter and the two bytes after it. -/
def inside (boundary : Bytes) : List Part → Bytes
  | [] => crlf
  | part :: parts => dumpPart part ++ dumpMessage boundary parts

theorem dumpMessage_eq (boundary : Bytes) (parts : List Part) :
    ∃ two : Bytes, two.length = 2 ∧
      dumpMessage boundary parts = dd ++ boundary ++ (two ++ inside boundary parts) := by
  cases parts with
  | nil => exact ⟨dd, rfl, rfl⟩
  | cons part parts => exact ⟨crlf, rfl, rfl⟩

theorem parseBody_inside {boundary : Bytes} (hlf : 10 ∉ boundary) {parts : List Part}
    (hc : ∀ part ∈ parts, part.Clean boundary) (fuel : ℕ) (hfuel : parts.length < fuel) :
    parseBody M boundary fuel (inside boundary parts) =
      if ∀ part ∈ parts, part.name M ≠ none then .ok parts else .error .undefined := by
  induction parts generalizing fuel with
  | nil =>
    obtain ⟨fuel, rfl⟩ := Nat.exists_eq_succ_of_ne_zero (Nat.ne_of_gt hfuel)
    simp [parseBody, inside]
  | cons part parts ih =>
    obtain ⟨fuel, rfl⟩ := Nat.exists_eq_succ_of_ne_zero (Nat.ne_of_gt (Nat.zero_lt_of_lt hfuel))
    rw [List.length_cons] at hfuel
    have hclean := hc part (List.mem_cons_self ..)
    obtain ⟨two, htwo, hmessage⟩ := dumpMessage_eq boundary parts
    have hrest := ih (fun p hp => hc p (List.mem_cons_of_mem _ hp)) fuel (by omega)
    -- a part ends with a line feed, which is not in the delimiter
    obtain ⟨s, hs⟩ : ∃ s, dumpPart part = s ++ [10] :=
      ⟨part.headers.flatMap dumpHeader ++ (crlf ++ (part.body ++ [13])), by simp [dumpPart, crlf]⟩
    have hfound : find (dd ++ boundary) (inside boundary (part :: parts)) =
        some (dumpPart part).length := by
      have hnone := hclean.delimiter
      have hdelimiter : 10 ∉ dd ++ boundary := by
        have hdd : 10 ∉ dd := by decide
        rw [List.mem_append, not_or]
        exact ⟨hdd, hlf⟩
      rw [hs] at hnone
      rw [inside, hmessage, hs, List.append_assoc, List.length_append]
      exact find_last hnone hdelimiter _
    have hdrop : (inside boundary (part :: parts)).drop
        ((dumpPart part).length + (dd ++ boundary).length + 2) = inside boundary parts := by
      rw [inside, hmessage, Nat.add_assoc, List.drop_length_add_append, List.drop_length_add_append,
        ← htwo, List.drop_left]
    have htake : (inside boundary (part :: parts)).take (dumpPart part).length = dumpPart part :=
      List.take_left
    have hne : dumpPart part ≠ [] := by simp [hs]
    have hcrlf : inside boundary (part :: parts) ≠ crlf := by
      intro heq
      have hlength := congrArg List.length heq
      have hdd : dd.length = 2 := rfl
      have hcrlf : crlf.length = 2 := rfl
      simp only [inside, hmessage, hs, List.length_append, List.length_cons] at hlength
      omega
    rw [parseBody, if_neg hcrlf, hfound]
    simp only [htake, hdrop, if_neg hne, parseSection_dump hclean.headers hclean.some_header, hrest,
      ok_bind, List.forall_mem_cons]
    by_cases hname : part.name M = none
    · rw [if_pos hname, if_neg (fun h => h.1 hname)]
    · rw [if_neg hname]
      by_cases hall : ∀ p ∈ parts, p.name M ≠ none
      · rw [if_pos hall, if_pos ⟨hname, hall⟩, ok_bind]
      · rw [if_neg hall, if_neg (fun h => hall h.2)]
        rfl

theorem length_message (boundary : Bytes) (parts : List Part) :
    parts.length < (dumpMessage boundary parts).length := by
  have hdd : dd.length = 2 := rfl
  induction parts with
  | nil =>
    simp only [dumpMessage, List.length_append, List.length_nil]
    omega
  | cons part parts ih =>
    simp only [dumpMessage, List.length_append, List.length_cons]
    omega

theorem parseBody_dump {boundary : Bytes} (hlf : 10 ∉ boundary) {parts : List Part}
    (hc : ∀ part ∈ parts, part.Clean boundary) :
    parseBody M boundary ((dumpMessage boundary parts).length + 1) (dumpMessage boundary parts) =
      if ∀ part ∈ parts, part.name M ≠ none then .ok parts else .error .undefined := by
  obtain ⟨two, htwo, hmessage⟩ := dumpMessage_eq boundary parts
  have hrest := parseBody_inside M hlf hc _ (length_message boundary parts)
  have hfound : find (dd ++ boundary) (dumpMessage boundary parts) = some 0 := by
    rw [hmessage]
    exact find_self _ _
  have hdrop : (dumpMessage boundary parts).drop (0 + (dd ++ boundary).length + 2) =
      inside boundary parts := by
    rw [hmessage, Nat.zero_add, List.drop_length_add_append, ← htwo, List.drop_left]
  have hcrlf : dumpMessage boundary parts ≠ crlf := by
    have hstart : (dumpMessage boundary parts).head? ≠ crlf.head? := by
      have hdash : '-'.toUInt8 ≠ 13 := by decide
      rw [hmessage]
      exact fun heq => hdash (Option.some.inj heq)
    exact fun heq => hstart (by rw [heq])
  rw [parseBody, if_neg hcrlf, hfound]
  simp only [hdrop, List.take_zero, if_true, hrest]

/-- The text that separates the parts: some bytes, no line feed, and not in quotes. -/
structure Boundary where
  text : Bytes
  some_byte : text ≠ []
  one_line : 10 ∉ text
  unquoted : text.head? ≠ some quote

/- `content_type` of a message. -/
def Boundary.contentType (boundary : Boundary) : Bytes :=
  bytes "multipart/form-data; boundary=" ++ boundary.text

theorem getBoundary_contentType (boundary : Boundary) :
    getBoundary boundary.contentType = boundary.text := by
  have hfound : find (bytes "boundary=") boundary.contentType = some 21 := by
    have habsent : 'b'.toUInt8 ∉ bytes "multipart/form-data; " := by decide
    exact find_sep habsent (bytes "oundary=") boundary.text
  have hdrop : boundary.contentType.drop (21 + 9) = boundary.text := by
    have hlength : 21 + 9 = (bytes "multipart/form-data; boundary=").length := rfl
    rw [Boundary.contentType, hlength, List.drop_left]
  rw [getBoundary, hfound]
  simp only [hdrop, if_neg boundary.unquoted]

theorem message_contentType (boundary : Boundary) (body : Bytes) :
    message M boundary.contentType body = parseBody M boundary.text (body.length + 1) body := by
  rw [message, getBoundary_contentType, if_neg boundary.some_byte]

/-- A written message is parsed to its parts, whichever entry of a multimap is found. Of a part
without a name the parser dereferences the end of the parameters. -/
theorem message_dump (boundary : Boundary) {parts : List Part}
    (hc : ∀ part ∈ parts, part.Clean boundary.text) :
    message M boundary.contentType (dumpMessage boundary.text parts) =
      if ∀ part ∈ parts, part.name M ≠ none then .ok parts else .error .undefined := by
  rw [message_contentType, parseBody_dump M boundary.one_line hc]

/- The first entry, as in a list. -/
def firstFound : Multimap where
  find := List.find?
  find_some h := ⟨List.mem_of_find?_eq_some h, List.find?_some h⟩
  find_none h x hx := by simpa using List.find?_eq_none.mp h x hx

def songHeader : Header :=
  ⟨bytes "Content-Disposition", bytes "form-data",
    [(bytes "name", bytes "audio"), (bytes "filename", bytes "song.wav")]⟩

theorem songHeader_clean : songHeader.Clean where
  key := by decide
  value := by decide
  names := by decide
  values := by decide
  distinct := by decide

def dashes : Boundary := ⟨bytes "--42", by decide, by decide, by decide⟩

/- The body of the part is a line end and the two dashes of a delimiter. -/
theorem song_clean : Part.Clean dashes.text ⟨[songHeader], [13, 10, 45, 45]⟩ where
  headers := List.forall_mem_singleton.mpr songHeader_clean
  some_header := by decide
  delimiter := by decide

theorem message_dump_song :
    message firstFound dashes.contentType
        (dumpMessage dashes.text [⟨[songHeader], [13, 10, 45, 45]⟩]) =
      .ok [⟨[songHeader], [13, 10, 45, 45]⟩] ∧
    message firstFound dashes.contentType
        (dumpMessage dashes.text [⟨[⟨bytes "Content-Type", bytes "audio/wav", []⟩], [0]⟩]) =
      .error .undefined := by
  refine ⟨(message_dump firstFound dashes (List.forall_mem_singleton.mpr song_clean)).trans ?_,
    (message_dump firstFound dashes (List.forall_mem_singleton.mpr ⟨?_, ?_, ?_⟩)).trans ?_⟩
  · exact if_pos (by decide)
  · exact List.forall_mem_singleton.mpr
      ⟨by decide, by decide, by decide, by decide, by decide⟩
  · decide
  · decide
  · exact if_neg (by decide)

/-! ### Every loop ends -/

theorem cutSemicolon_shorter {line : Bytes} (h : line ≠ []) :
    (cutSemicolon line).2.length < line.length := by
  have hpos : 0 < line.length := List.length_pos_of_ne_nil h
  rw [cutSemicolon]
  split
  · exact hpos
  · rw [List.length_drop]
    omega

/- The loop has not come to its bound. -/
def Ends {α : Type} (r : Except Fault α) : Prop := r ≠ .error .fuel

theorem ends_ok {α : Type} (a : α) : Ends (.ok a) := by
  rintro ⟨⟩

theorem Ends.bind {α β : Type} {r : Except Fault α} {f : α → Except Fault β} (hr : Ends r)
    (hf : ∀ a, Ends (f a)) : Ends (r >>= f) := by
  cases r with
  | error e => exact fun heq => hr (congrArg Except.error (Except.error.inj heq))
  | ok a => exact hf a

theorem substrFrom_ends (s : Bytes) (pos : ℕ) : Ends (substrFrom s pos) := by
  rw [substrFrom]
  split
  · exact ends_ok _
  · rintro ⟨⟩

theorem parseParams_ends {fuel : ℕ} {line : Bytes} (h : line.length < fuel)
    (params : List (Bytes × Bytes)) : Ends (parseParams fuel line params) := by
  induction fuel generalizing line params with
  | zero => exact absurd h (Nat.not_lt_zero _)
  | succ fuel ih =>
    rw [parseParams]
    split
    · exact ends_ok _
    · next hne =>
      have hshort : (cutSemicolon line).2.length < fuel := by
        have hcut := cutSemicolon_shorter hne
        omega
      exact (substrFrom_ends _ _).bind fun _ => ih hshort _

theorem parseLine_ends (line : Bytes) : Ends (parseLine line) := by
  rw [parseLine]
  split
  · exact ends_ok _
  · exact (substrFrom_ends _ _).bind fun _ =>
      (parseParams_ends (Nat.lt_succ_self _) _).bind fun _ => ends_ok _

/- Also without a line end something is taken away. -/
theorem behind_pos (found : Option ℕ) : 0 < behind found 2 := by
  cases found with
  | none => exact Nat.one_pos
  | some i => exact Nat.succ_pos _

theorem parseSectionHead_ends {fuel : ℕ} {lines : Bytes} (h : lines.length < fuel) :
    Ends (parseSectionHead fuel lines) := by
  induction fuel generalizing lines with
  | zero => exact absurd h (Nat.not_lt_zero _)
  | succ fuel ih =>
    rw [parseSectionHead]
    split
    · exact ends_ok _
    · next hne =>
      have hpos : 0 < lines.length := List.length_pos_of_ne_nil hne
      have hbehind := behind_pos (find crlf lines)
      have hshort : (lines.drop (behind (find crlf lines) 2)).length < fuel := by
        rw [List.length_drop]
        omega
      exact (parseLine_ends _).bind fun _ => (ih hshort).bind fun _ => ends_ok _

theorem parseSection_ends (text : Bytes) : Ends (parseSection text) :=
  (parseSectionHead_ends (Nat.lt_succ_self _)).bind fun _ => ends_ok _

theorem parseBody_ends (boundary : Bytes) {fuel : ℕ} {body : Bytes} (h : body.length < fuel) :
    Ends (parseBody M boundary fuel body) := by
  induction fuel generalizing body with
  | zero => exact absurd h (Nat.not_lt_zero _)
  | succ fuel ih =>
    rw [parseBody]
    split
    · exact ends_ok _
    · split
      · rintro ⟨⟩
      · next found hfound =>
        have hle := find_le hfound
        have hdd : (dd ++ boundary).length = 2 + boundary.length := List.length_append
        have hshort : (body.drop (found + (dd ++ boundary).length + 2)).length < fuel := by
          rw [List.length_drop]
          omega
        have hrest := ih hshort
        simp only
        split
        · exact hrest
        · refine (parseSection_ends _).bind fun part => ?_
          split
          · rintro ⟨⟩
          · exact hrest.bind fun _ => ends_ok _

/-- The parser ends on every request, also where it computes with `npos`. -/
theorem message_ends (contentType body : Bytes) : Ends (message M contentType body) := by
  rw [message]
  split
  · rintro ⟨⟩
  · exact parseBody_ends M _ (Nat.lt_succ_self _)

end

end Multipart

end TypegoSdk.Crow
