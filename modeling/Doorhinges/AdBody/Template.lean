import Doorhinges.Query.Url

/-!
# Body templates

The text of an advertisement holds tokens such as `{$SessionId$}`, which
`get_adbody` replaces one after another. What stands between `[$img$]` and
`[$endimg$]`, or between the `url` tokens, is gathered in an array of its own and
loses its backslashes. A result `none` is a step outside a buffer or the use of a
null pointer.
-/
namespace Doorhinges.AdBody

open Lib.CString
open Query

/-- The content of a C string. -/
abbrev Text := {s : Bytes // 0 ∉ s}

/-- What `get_adbody` has at hand for the tokens of one body. -/
structure Env where
  imgDomain : Option Text
  imgUrl : Option Text
  nearWidth : Option Text
  format : Text
  ppId : Text
  timestamp : Text
  sessionId : Text

/-- The end of the response and the segment that is open at `buftmp`. -/
structure Writer where
  sBody : Bytes
  tp2 : Option Bytes

inductive Token where
  | imgdomain
  | format
  | imgsize
  | sessionid
  | img
  | endimg
  | url
  | endurl
  | cbimp
  | cbclk
  deriving DecidableEq

def Token.text : Token → Bytes
  | .imgdomain => ascii "\x7b$ImgDomain$\x7d"
  | .format => ascii "\x7b$format$\x7d"
  | .imgsize => ascii "\x7b$ImgSize$\x7d"
  | .sessionid => ascii "\x7b$SessionId$\x7d"
  | .img => ascii "[$img$]"
  | .endimg => ascii "[$endimg$]"
  | .url => ascii "[$url$]"
  | .endurl => ascii "[$endurl$]"
  | .cbimp => ascii "\x7b$cbimp$\x7d"
  | .cbclk => ascii "\x7b$cbclk$\x7d"

/-- The token whose first six characters stand here, in either case. -/
def tokenAt (tp1 : Bytes) : Option Token :=
  [Token.imgdomain, .format, .imgsize, .sessionid, .img, .endimg, .url, .endurl, .cbimp,
    .cbclk].find? fun t => caseEq (tp1.take 6) (t.text.take 6)

/-- A text goes to the open segment, else to the response. -/
def Writer.put (w : Writer) (s : Bytes) : Option Writer :=
  match w.tp2 with
  | none => some { w with sBody := w.sBody ++ s }
  | some seg => if seg.length + s.length ≤ 1024 then some { w with tp2 := some (seg ++ s) } else none

def Writer.putBoth (w : Writer) (s t : Bytes) : Option Writer := (w.put s).bind (·.put t)

/-- `replace_char` for one character and no replacement, through its array of 400. -/
def replaceChar (str : Bytes) (erase : UInt8) : Option Bytes :=
  let str1 := str.filter (· ≠ erase)
  if str1.length < 400 then some str1 else none

/-- The segment is closed and goes to the response without backslashes. -/
def Writer.close (w : Writer) (pre : Bytes) : Option Writer := do
  let seg ← w.tp2
  if seg.length + pre.length < 1024 then
    let text ← replaceChar (seg ++ pre) 92
    some ⟨w.sBody ++ text, none⟩
  else none

def Env.query (e : Env) (path : Bytes) : Bytes :=
  path ++ ascii "?sessionid=" ++ e.sessionId ++ ascii "&format=" ++ e.format ++
    ascii "&pid=" ++ e.ppId ++ ascii "&timestamp=" ++ e.timestamp

/-- The address of a callback, always written to the response. -/
def Writer.callback (w : Writer) (e : Env) (pre path : Bytes) : Option Writer := do
  let domain ← e.imgDomain
  if (e.query path).length < 1024 then
    some { w with sBody := w.sBody ++ pre ++ domain ++ e.query path }
  else none

/-- `*(log->format)` is one of two letters. -/
def startsWith (format : Bytes) (upper low : UInt8) : Bool :=
  format.head? = some upper || format.head? = some low

def Writer.token (w : Writer) (e : Env) (pre : Bytes) : Token → Option Writer
  | .imgdomain => if e.imgDomain.isSome then e.imgUrl.bind fun u => w.putBoth pre u else some w
  | .format =>
    let amp := if startsWith e.format 88 120 then ascii "&amp;p=" else ascii "&p="
    w.putBoth pre (snprintf 128 (e.format ++ amp ++ e.ppId))
  | .imgsize => e.nearWidth.bind fun n => w.putBoth pre n
  | .sessionid => w.putBoth pre e.sessionId
  | .img | .url => some ⟨w.sBody ++ pre, some []⟩
  | .endimg | .endurl => w.close pre
  | .cbimp => w.callback e pre (ascii "/v2/cbimp")
  | .cbclk => w.callback e pre (ascii "/v2/cbclk")

/-- `strlen(tp)` bytes of the text once `*tp1` is zero: a token that starts before
`tp` does not shorten it. -/
def before (tp : Bytes) (n : Nat) : Bytes := if n = 0 then tp else tp.take (n - 1)

/-- The replacement loop. `prev` is the byte before `tp`, `n` the place of the next
dollar sign; a token starts one byte before it and ends where its full text would. -/
def substitute (e : Env) : Nat → Option UInt8 → Bytes → Writer → Option Bytes
  | 0, _, _, _ => none
  | fuel + 1, prev, tp, w =>
    match tp.findIdx? (· = 36) with
    | none => some (w.sBody ++ tp)
    | some n =>
      match if n = 0 then prev else tp[n - 1]? with
      | none => none
      | some c =>
        match tokenAt (c :: tp.drop n) with
        | some t =>
          if n + t.text.length ≤ tp.length + 1 then
            (w.token e (before tp n) t).bind
              (substitute e fuel tp[n + t.text.length - 2]? (tp.drop (n + t.text.length - 1)))
          else none
        | none => (w.put (tp.take (n + 1))).bind (substitute e fuel (some 36) (tp.drop (n + 1)))

/-- A body with its tokens replaced; every round of the loop consumes a byte. -/
def bodyOf (e : Env) (template : Bytes) : Option Bytes :=
  substitute e (template.length + 1) none template ⟨[], none⟩

theorem Token.length_text (t : Token) : 7 ≤ t.text.length := by cases t <;> decide

section Terminator

/-- Nothing written holds a terminator. -/
def Writer.Clean (w : Writer) : Prop := 0 ∉ w.sBody ∧ ∀ seg ∈ w.tp2, 0 ∉ seg

variable {e : Env} {w w' : Writer} {s pre : Bytes}

theorem Writer.Clean.put (hw : w.Clean) (hs : 0 ∉ s) (h : w.put s = some w') : w'.Clean := by
  rw [Writer.put] at h
  split at h
  · rename_i hseg
    obtain rfl := Option.some.inj h
    exact ⟨by simp [hw.1, hs], by simp [hseg]⟩
  · rename_i seg hseg
    split at h
    · obtain rfl := Option.some.inj h
      exact ⟨hw.1, by simp [hw.2 seg hseg, hs]⟩
    · cases h

theorem Writer.Clean.putBoth {t : Bytes} (hw : w.Clean) (hs : 0 ∉ s) (ht : 0 ∉ t)
    (h : w.putBoth s t = some w') : w'.Clean := by
  obtain ⟨u, hu, h⟩ := Option.bind_eq_some_iff.1 h
  exact (hw.put hs hu).put ht h

theorem Writer.Clean.close (hw : w.Clean) (hp : 0 ∉ pre) (h : w.close pre = some w') :
    w'.Clean := by
  obtain ⟨seg, hseg, h⟩ := Option.bind_eq_some_iff.1 h
  split at h
  · obtain ⟨text, ht, h⟩ := Option.bind_eq_some_iff.1 h
    obtain rfl := Option.some.inj h
    rw [replaceChar] at ht
    split at ht
    · obtain rfl := Option.some.inj ht
      have := hw.2 seg hseg
      exact ⟨by simp [hw.1, this, hp], by simp⟩
    · cases ht
  · cases h

theorem Env.query_nul {path : Bytes} (hpath : 0 ∉ path) : 0 ∉ e.query path := by
  have names : (0 : UInt8) ∉ ascii "?sessionid=" ∧ (0 : UInt8) ∉ ascii "&format=" ∧
      (0 : UInt8) ∉ ascii "&pid=" ∧ (0 : UInt8) ∉ ascii "&timestamp=" := by decide
  obtain ⟨h1, h2, h3, h4⟩ := names
  simp only [Env.query, List.mem_append, hpath, h1, h2, h3, h4, e.sessionId.2, e.format.2,
    e.ppId.2, e.timestamp.2, or_self, not_false_eq_true]

theorem Writer.Clean.callback {path : Bytes} (hw : w.Clean) (hp : 0 ∉ pre) (hpath : 0 ∉ path)
    (h : w.callback e pre path = some w') : w'.Clean := by
  obtain ⟨domain, -, h⟩ := Option.bind_eq_some_iff.1 h
  split at h
  · obtain rfl := Option.some.inj h
    have hq := e.query_nul hpath
    exact ⟨by simp [hw.1, hp, hq, domain.2], hw.2⟩
  · cases h

theorem Writer.Clean.token {t : Token} (hw : w.Clean) (hp : 0 ∉ pre)
    (h : w.token e pre t = some w') : w'.Clean := by
  cases t with
  | imgdomain =>
    rw [Writer.token] at h
    split at h
    · obtain ⟨u, -, h⟩ := Option.bind_eq_some_iff.1 h
      exact hw.putBoth hp u.2 h
    · obtain rfl := Option.some.inj h
      exact hw
  | format =>
    refine hw.putBoth hp (fun h0 => ?_) h
    have h0 := List.mem_of_mem_take h0
    have amp : (0 : UInt8) ∉ ascii "&amp;p=" ∧ (0 : UInt8) ∉ ascii "&p=" := by decide
    rcases List.mem_append.1 h0 with h0 | h0
    · rcases List.mem_append.1 h0 with h0 | h0
      · exact e.format.2 h0
      · split at h0
        · exact amp.1 h0
        · exact amp.2 h0
    · exact e.ppId.2 h0
  | imgsize =>
    obtain ⟨n, -, h⟩ := Option.bind_eq_some_iff.1 h
    exact hw.putBoth hp n.2 h
  | sessionid => exact hw.putBoth hp e.sessionId.2 h
  | img | url =>
    obtain rfl := Option.some.inj h
    exact ⟨by simp [hw.1, hp], by simp⟩
  | endimg | endurl => exact hw.close hp h
  | cbimp | cbclk => exact hw.callback hp (by decide) h

theorem substitute_nul {f : Nat} {prev : Option UInt8} {tp : Bytes} {b : Bytes} (hw : w.Clean)
    (hp : 0 ∉ tp) (h : substitute e f prev tp w = some b) : 0 ∉ b := by
  induction f generalizing prev tp w with
  | zero => cases h
  | succ f ih =>
    rw [substitute] at h
    split at h
    · obtain rfl := Option.some.inj h
      simp [hw.1, hp]
    · split at h
      · cases h
      · rename_i n _ _ c _
        have drop : ∀ k, 0 ∉ tp.drop k := fun k h0 => hp (List.mem_of_mem_drop h0)
        have take : ∀ k, 0 ∉ tp.take k := fun k h0 => hp (List.mem_of_mem_take h0)
        split at h
        · split at h
          · obtain ⟨w', hw', h⟩ := Option.bind_eq_some_iff.1 h
            refine ih (hw.token ?_ hw') (drop _) h
            rw [before]
            split
            · exact hp
            · exact take _
          · cases h
        · obtain ⟨w', hw', h⟩ := Option.bind_eq_some_iff.1 h
          exact ih (hw.put (take _) hw') (drop _) h

/-- A returned body is the content of a C string. -/
theorem bodyOf_nul {template b : Bytes} (ht : 0 ∉ template) (h : bodyOf e template = some b) :
    0 ∉ b :=
  substitute_nul ⟨by simp, by simp⟩ ht h

end Terminator

end Doorhinges.AdBody
