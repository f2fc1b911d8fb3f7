import Doorhinges.AdBody.Atoms
import Doorhinges.AdBody.Sessions

/-!
# Templates as they are written

A body template is a text with markers in it and with sections whose content is
gathered first. Expanding it puts the value of each marker in the marker's place
and takes the backslashes out of the sections. `bodyOf` does so for a template
that nowhere looks like a marker where it has none, that has its callbacks outside
the sections, and whose options are set.
-/
namespace Doorhinges.AdBody

open Lib.CString

/-- The markers that stand for a value. -/
inductive Marker where
  | imgdomain
  | format
  | imgsize
  | sessionid
  | cbimp
  | cbclk
  deriving DecidableEq

def Marker.token : Marker → Token
  | .imgdomain => .imgdomain
  | .format => .format
  | .imgsize => .imgsize
  | .sessionid => .sessionid
  | .cbimp => .cbimp
  | .cbclk => .cbclk

def Marker.isCallback : Marker → Bool
  | .cbimp | .cbclk => true
  | _ => false

inductive Piece where
  | char (c : UInt8)
  | marker (m : Marker)

def Piece.isCallback : Piece → Bool
  | .char _ => false
  | .marker m => m.isCallback

inductive Part where
  | piece (p : Piece)
  | img (content : List Piece)
  | url (content : List Piece)

abbrev Template := List Part

namespace Env

variable (e : Env)

/-- `{$format$}` before it goes through its array of 128. -/
def formatText : Bytes :=
  e.format ++ (if startsWith e.format 88 120 then ascii "&amp;p=" else ascii "&p=") ++ e.ppId

/-- The text of an option, empty for one that is not set. -/
def optionText (o : Option Text) : Bytes := o.elim [] (·.1)

def value : Marker → Bytes
  | .imgdomain => optionText e.imgUrl
  | .format => e.formatText
  | .imgsize => optionText e.nearWidth
  | .sessionid => e.sessionId
  | .cbimp => optionText e.imgDomain ++ e.query (ascii "/v2/cbimp")
  | .cbclk => optionText e.imgDomain ++ e.query (ascii "/v2/cbclk")

def expandPiece : Piece → Bytes
  | .char c => [c]
  | .marker m => e.value m

def expandPieces (ps : List Piece) : Bytes := ps.flatMap e.expandPiece

def expandPart : Part → Bytes
  | .piece p => e.expandPiece p
  | .img content | .url content => (e.expandPieces content).filter (· ≠ 92)

/-- What the template stands for. -/
def expand (t : Template) : Bytes := t.flatMap e.expandPart

/-- The options a marker takes its value from are set. -/
def OptionsSet : Marker → Prop
  | .imgdomain => e.imgDomain.isSome ∧ e.imgUrl.isSome
  | .cbimp | .cbclk => e.imgDomain.isSome
  | _ => True

/-- The value of a marker fits the array it goes through. -/
def Fits : Marker → Prop
  | .format => e.formatText.length < 128
  | .cbimp => (e.query (ascii "/v2/cbimp")).length < 1024
  | .cbclk => (e.query (ascii "/v2/cbclk")).length < 1024
  | _ => True

end Env

def Piece.atom : Piece → Atom
  | .char c => .char c
  | .marker m => .token m.token

def Part.atoms : Part → List Atom
  | .piece p => [p.atom]
  | .img content => .token .img :: (content.map Piece.atom ++ [.token .endimg])
  | .url content => .token .url :: (content.map Piece.atom ++ [.token .endurl])

/-- What stands between the ends of a section. -/
def Part.content : Part → Option (List Piece)
  | .piece _ => none
  | .img content | .url content => some content

def Part.pieces : Part → List Piece
  | .piece p => [p]
  | .img content | .url content => content

theorem Part.eq_piece {p : Part} (h : p.content = none) : ∃ q, p = .piece q := by
  cases p with
  | piece q => exact ⟨q, rfl⟩
  | img | url => cases h

/-- The two kinds of section differ in their tokens only. -/
theorem Part.eq_section (e : Env) {p : Part} {content : List Piece} (h : p.content = some content) :
    ∃ start stop : Token, (start = .img ∨ start = .url) ∧ (stop = .endimg ∨ stop = .endurl) ∧
      p.atoms = .token start :: (content.map Piece.atom ++ [.token stop]) ∧
      p.pieces = content ∧ e.expandPart p = (e.expandPieces content).filter (· ≠ 92) := by
  cases p with
  | piece q => cases h
  | img c =>
    obtain rfl := Option.some.inj h
    exact ⟨.img, .endimg, .inl rfl, .inl rfl, rfl, rfl, rfl⟩
  | url c =>
    obtain rfl := Option.some.inj h
    exact ⟨.url, .endurl, .inr rfl, .inr rfl, rfl, rfl, rfl⟩

namespace Template

variable (e : Env) (t : Template)

def atoms : List Atom := t.flatMap Part.atoms

def text : Bytes := textOf t.atoms

/-- The values and the sections fit their arrays. -/
structure Fits : Prop where
  values : ∀ p ∈ t, ∀ m, .marker m ∈ p.pieces → e.Fits m
  sections : ∀ p ∈ t, ∀ content ∈ p.content, (e.expandPieces content).length < 1024 ∧
    ((e.expandPieces content).filter (· ≠ 92)).length < 400

/-- No round of the loop takes a text for a marker that is none, writes a callback out of
its section, or needs an option that is not set. -/
structure Regular : Prop where
  plain : Plain t.atoms
  start : t.atoms.head? ≠ some (.char 36)
  callbacks : ∀ p ∈ t, ∀ content ∈ p.content, ∀ q ∈ content, q.isCallback = false
  options : ∀ p ∈ t, ∀ m, .marker m ∈ p.pieces → e.OptionsSet m

end Template

section Writer

variable {e : Env} {w : Writer} {lit s t : Bytes}

/-- A text goes to the open segment, however long it is, else to the response. -/
def Writer.push (w : Writer) (s : Bytes) : Writer :=
  match w.tp2 with
  | none => { w with sBody := w.sBody ++ s }
  | some seg => { w with tp2 := some (seg ++ s) }

def Writer.Room (w : Writer) (n : Nat) : Prop := ∀ seg ∈ w.tp2, seg.length + n ≤ 1024

theorem Writer.push_push : (w.push s).push t = w.push (s ++ t) := by
  obtain ⟨sBody, _ | seg⟩ := w <;> simp [Writer.push]

theorem Writer.push_nil : w.push [] = w := by
  obtain ⟨sBody, _ | seg⟩ := w <;> simp [Writer.push]

theorem Writer.push_isSome : (w.push s).tp2.isSome = w.tp2.isSome := by
  obtain ⟨sBody, _ | seg⟩ := w <;> rfl

theorem Writer.push_room {n : Nat} : (w.push s).Room n ↔ w.Room (s.length + n) := by
  obtain ⟨sBody, _ | seg⟩ := w
  · simp [Writer.push, Writer.Room]
  · simp [Writer.push, Writer.Room, Nat.add_assoc]

theorem Writer.Room.le {m n : Nat} (h : w.Room n) (hmn : m ≤ n) : w.Room m :=
  fun seg hseg => (Nat.add_le_add_left hmn _).trans (h seg hseg)

theorem Writer.put_eq (h : w.Room s.length) : w.put s = some (w.push s) := by
  obtain ⟨sBody, _ | seg⟩ := w
  · rfl
  · exact if_pos (h seg rfl)

theorem Writer.putBoth_eq (h : w.Room (s.length + t.length)) :
    w.putBoth s t = some (w.push (s ++ t)) := by
  rw [Writer.putBoth, put_eq (h.le (Nat.le_add_right _ _)), Option.bind_some,
    put_eq (push_room.2 h), push_push]

theorem Writer.callback_eq {d : Text} {path : Bytes} (hd : e.imgDomain = some d)
    (hfits : (e.query path).length < 1024) (htp2 : w.tp2 = none) :
    w.callback e s path = some (w.push (s ++ (d ++ e.query path))) := by
  rw [Writer.callback, hd, Option.bind_eq_bind, Option.bind_some, if_pos hfits, Writer.push, htp2]
  simp

/-- A marker is replaced by its value. -/
theorem Writer.token_value {m : Marker} (hwidth : e.nearWidth.isSome) (hset : e.OptionsSet m)
    (hfits : e.Fits m) (hopen : w.tp2.isSome → m.isCallback = false)
    (hroom : w.Room (lit.length + (e.value m).length)) :
    w.token e lit m.token = some (w.push (lit ++ e.value m)) := by
  have hcallback : m.isCallback = true → w.tp2 = none := fun h => by
    cases htp : w.tp2 with
    | none => rfl
    | some seg => rw [hopen (by rw [htp]; rfl)] at h; cases h
  cases m with
  | imgdomain =>
    obtain ⟨u, hu⟩ := Option.isSome_iff_exists.1 hset.2
    rw [Marker.token, Writer.token, if_pos hset.1, hu, Option.bind_some]
    rw [Env.value, hu] at hroom ⊢
    exact putBoth_eq hroom
  | format =>
    have hwhole : snprintf 128 e.formatText = e.formatText :=
      List.take_of_length_le (Nat.le_sub_one_of_lt hfits)
    exact (congrArg (w.putBoth lit) hwhole).trans (putBoth_eq hroom)
  | imgsize =>
    obtain ⟨n, hn⟩ := Option.isSome_iff_exists.1 hwidth
    rw [Marker.token, Writer.token, hn, Option.bind_some]
    rw [Env.value, hn] at hroom ⊢
    exact putBoth_eq hroom
  | sessionid => exact putBoth_eq hroom
  | cbimp | cbclk =>
    obtain ⟨d, hd⟩ := Option.isSome_iff_exists.1 hset
    rw [Marker.token, Writer.token, callback_eq hd hfits (hcallback rfl), Env.value, hd]
    rfl

/-- What a piece stands for has been written, or stands before the place reached. -/
theorem run_piece {p : Piece} (as : List Atom) (hwidth : e.nearWidth.isSome)
    (hset : ∀ m, .marker m = p → e.OptionsSet m) (hfits : ∀ m, .marker m = p → e.Fits m)
    (hopen : w.tp2.isSome → ∀ m, .marker m = p → m.isCallback = false)
    (hroom : w.Room (lit.length + (e.expandPiece p).length)) :
    ∃ lit' w', run e lit (p.atom :: as) w = run e lit' as w' ∧
      w'.push lit' = w.push (lit ++ e.expandPiece p) := by
  cases p with
  | char c =>
    by_cases hdollar : c = 36
    · subst hdollar
      have hput : w.put (lit ++ [36]) = some (w.push (lit ++ [36])) :=
        Writer.put_eq (by rwa [List.length_append])
      refine ⟨[], w.push (lit ++ [36]), ?_, Writer.push_nil⟩
      rw [Piece.atom, run, if_pos rfl, hput, Option.bind_some]
    · refine ⟨lit ++ [c], w, ?_, rfl⟩
      rw [Piece.atom, run, if_neg hdollar]
  | marker m =>
    have htoken := Writer.token_value hwidth (hset m rfl) (hfits m rfl) (hopen · m rfl) hroom
    refine ⟨[], w.push (lit ++ e.value m), ?_, Writer.push_nil⟩
    rw [Piece.atom, run, htoken, Option.bind_some]

theorem run_pieces {ps : List Piece} (as : List Atom) (hwidth : e.nearWidth.isSome)
    (hset : ∀ m, .marker m ∈ ps → e.OptionsSet m) (hfits : ∀ m, .marker m ∈ ps → e.Fits m)
    (hopen : w.tp2.isSome → ∀ m, .marker m ∈ ps → m.isCallback = false)
    (hroom : w.Room (lit.length + (e.expandPieces ps).length)) :
    ∃ lit' w', run e lit (ps.map Piece.atom ++ as) w = run e lit' as w' ∧
      w'.push lit' = w.push (lit ++ e.expandPieces ps) := by
  induction ps generalizing lit w with
  | nil => exact ⟨lit, w, rfl, by rw [Env.expandPieces, List.flatMap_nil, List.append_nil]⟩
  | cons p ps ih =>
    have hcons : e.expandPieces (p :: ps) = e.expandPiece p ++ e.expandPieces ps :=
      List.flatMap_cons
    rw [hcons, List.length_append, ← Nat.add_assoc] at hroom
    obtain ⟨lit1, w1, hrun1, hpush1⟩ := run_piece (p := p) (ps.map Piece.atom ++ as) hwidth
      (fun m hm => hset m (hm ▸ List.mem_cons_self)) (fun m hm => hfits m (hm ▸ List.mem_cons_self))
      (fun h m hm => hopen h m (hm ▸ List.mem_cons_self)) (hroom.le (Nat.le_add_right _ _))
    have hsame : w1.tp2.isSome = w.tp2.isSome := by
      rw [← Writer.push_isSome (s := lit1), hpush1, Writer.push_isSome]
    have hroom1 : w1.Room (lit1.length + (e.expandPieces ps).length) := by
      rw [← Writer.push_room, hpush1, Writer.push_room, List.length_append]
      exact hroom
    obtain ⟨lit', w', hrun, hpush⟩ := ih (fun m hm => hset m (List.mem_cons_of_mem _ hm))
      (fun m hm => hfits m (List.mem_cons_of_mem _ hm))
      (fun h m hm => hopen (hsame ▸ h) m (List.mem_cons_of_mem _ hm)) hroom1
    refine ⟨lit', w', hrun1.trans hrun, ?_⟩
    rw [hpush, ← Writer.push_push, hpush1, Writer.push_push, List.append_assoc, hcons]

theorem Writer.close_eq {seg : Bytes} (hlen : (seg ++ lit).length < 1024)
    (hkept : ((seg ++ lit).filter (· ≠ 92)).length < 400) :
    Writer.close ⟨s, some seg⟩ lit = some ⟨s ++ (seg ++ lit).filter (· ≠ 92), none⟩ := by
  rw [List.length_append] at hlen
  rw [Writer.close, Option.bind_eq_bind, Option.bind_some, if_pos hlen, replaceChar, if_pos hkept]
  rfl

/-- A section goes to the response when it is closed. -/
theorem run_section {ps : List Piece} (as : List Atom) {start stop : Token} {s : Bytes}
    (hstart : start = .img ∨ start = .url) (hstop : stop = .endimg ∨ stop = .endurl)
    (hwidth : e.nearWidth.isSome) (hset : ∀ m, .marker m ∈ ps → e.OptionsSet m)
    (hfits : ∀ m, .marker m ∈ ps → e.Fits m)
    (hopen : ∀ m, .marker m ∈ ps → m.isCallback = false)
    (hlen : (e.expandPieces ps).length < 1024)
    (hkept : ((e.expandPieces ps).filter (· ≠ 92)).length < 400) :
    run e lit (.token start :: (ps.map Piece.atom ++ .token stop :: as)) ⟨s, none⟩ =
      run e [] as ⟨s ++ (lit ++ (e.expandPieces ps).filter (· ≠ 92)), none⟩ := by
  have hbegin : Writer.token ⟨s, none⟩ e lit start = some ⟨s ++ lit, some []⟩ := by
    rcases hstart with rfl | rfl <;> rfl
  have hroom : Writer.Room ⟨s ++ lit, some []⟩
      (([] : Bytes).length + (e.expandPieces ps).length) := by
    intro seg hseg
    obtain rfl := Option.some.inj hseg
    rw [List.length_nil]
    omega
  obtain ⟨lit', w', hrun, hpush⟩ := run_pieces (.token stop :: as) hwidth hset hfits
    (fun _ => hopen) hroom
  have hend : w'.token e lit' stop =
      some ⟨s ++ lit ++ (e.expandPieces ps).filter (· ≠ 92), none⟩ := by
    obtain ⟨b, _ | seg⟩ := w'
    · cases congrArg Writer.tp2 hpush
    · obtain rfl : b = s ++ lit := congrArg Writer.sBody hpush
      have hseg : seg ++ lit' = e.expandPieces ps := Option.some.inj (congrArg Writer.tp2 hpush)
      rw [← hseg] at hlen hkept ⊢
      rcases hstop with rfl | rfl <;> exact Writer.close_eq hlen hkept
  rw [run, hbegin, Option.bind_some, hrun, run, hend, Option.bind_some, List.append_assoc]

end Writer

section Expanded

variable {e : Env} {t : Template}

/-- Every part is written as it is expanded. -/
theorem run_parts {lit s : Bytes} (hwidth : e.nearWidth.isSome) (hfits : t.Fits e)
    (hcallbacks : ∀ p ∈ t, ∀ content ∈ p.content, ∀ q ∈ content, q.isCallback = false)
    (hoptions : ∀ p ∈ t, ∀ m, .marker m ∈ p.pieces → e.OptionsSet m) :
    run e lit t.atoms ⟨s, none⟩ = some (s ++ (lit ++ e.expand t)) := by
  induction t generalizing lit s with
  | nil =>
    change some (s ++ lit) = some (s ++ (lit ++ []))
    rw [List.append_nil]
  | cons p t ih =>
    have hrest : ∀ {lit s : Bytes}, run e lit (Template.atoms t) ⟨s, none⟩ =
        some (s ++ (lit ++ e.expand t)) :=
      ih ⟨fun q hq => hfits.values q (List.mem_cons_of_mem _ hq),
          fun q hq => hfits.sections q (List.mem_cons_of_mem _ hq)⟩
        (fun q hq => hcallbacks q (List.mem_cons_of_mem _ hq))
        (fun q hq => hoptions q (List.mem_cons_of_mem _ hq))
    have hvalues := hfits.values p List.mem_cons_self
    have hset := hoptions p List.mem_cons_self
    have hatoms : Template.atoms (p :: t) = p.atoms ++ Template.atoms t := List.flatMap_cons
    have hexpand : e.expand (p :: t) = e.expandPart p ++ e.expand t := List.flatMap_cons
    rw [hatoms, hexpand]
    cases hp : p.content with
    | none =>
      obtain ⟨q, rfl⟩ := Part.eq_piece hp
      obtain ⟨lit', w', hrun, hpush⟩ := @run_piece e ⟨s, none⟩ lit q
        (Template.atoms t) hwidth (fun m hm => hset m (List.mem_singleton.2 hm))
        (fun m hm => hvalues m (List.mem_singleton.2 hm)) (fun h => nomatch h)
        (fun seg hseg => nomatch hseg)
      obtain ⟨b, _ | seg⟩ := w'
      · have hb : b ++ lit' = s ++ (lit ++ e.expandPiece q) := congrArg Writer.sBody hpush
        rw [Part.atoms, List.singleton_append, hrun, hrest, ← List.append_assoc, hb]
        simp [Env.expandPart]
      · cases congrArg Writer.tp2 hpush
    | some content =>
      obtain ⟨start, stop, hstart, hstop, hp_atoms, hpieces, hp_expand⟩ := Part.eq_section e hp
      obtain ⟨hlen, hkept⟩ := hfits.sections p List.mem_cons_self content hp
      rw [hp_atoms, hp_expand, List.cons_append, List.append_assoc, List.singleton_append,
        run_section _ hstart hstop hwidth (hpieces ▸ hset) (hpieces ▸ hvalues)
          (fun m hm => hcallbacks p List.mem_cons_self content hp _ hm) hlen hkept, hrest]
      simp

/-- A regular template that fits comes out as it is expanded. -/
theorem bodyOf_text (hwidth : e.nearWidth.isSome) (hfits : t.Fits e) (hregular : t.Regular e) :
    bodyOf e t.text = some (e.expand t) := by
  have hapart : Apart t.atoms [] none :=
    ⟨List.not_mem_nil, fun c hc => (by cases hc), fun _ => hregular.start⟩
  have hloop := @substitute_atoms e _ _ _ ⟨[], none⟩ (t.text.length + 1)
    hregular.plain hapart (by rw [List.length_nil, Nat.zero_add]; exact Nat.lt_succ_self _)
  rw [bodyOf]
  exact hloop.trans (run_parts hwidth hfits hregular.callbacks hregular.options)

end Expanded

/-- The body of a served advertisement is what its template stands for. -/
theorem body_expanded (r : Request) {width : Text} (hwidth : r.nearWidth = some (some width))
    (k : Nat) {t : Template} (hfits : t.Fits (r.env (r.sessionId k)))
    (hregular : t.Regular (r.env (r.sessionId k))) :
    bodyOf (r.env (r.sessionId k)) t.text = some ((r.env (r.sessionId k)).expand t) ∧
    ∀ (s s' : Loop) (ad : Ad) (tp : Text), s.adnum = k → tp.1 = t.text →
      r.serve s ad tp = some s' →
        s'.sBody = r.append k s.sBody ((r.env (r.sessionId k)).expand t) := by
  have hbody : bodyOf (r.env (r.sessionId k)) t.text = some ((r.env (r.sessionId k)).expand t) :=
    bodyOf_text (by rw [Request.env, hwidth]; rfl) hfits hregular
  refine ⟨hbody, fun s s' ad tp hk htp hserve => ?_⟩
  subst hk
  obtain ⟨element, -, hserve⟩ := Option.bind_eq_some_iff.1 hserve
  rw [htp, hbody, Option.bind_eq_bind, Option.bind_some] at hserve
  dsimp only at hserve
  by_cases hroom : (r.append s.adnum s.sBody ((r.env (r.sessionId s.adnum)).expand t)).length < r.room
  · rw [if_pos hroom] at hserve
    obtain rfl := Option.some.inj hserve
    rfl
  · rw [if_neg hroom] at hserve
    cases hserve

/-- A request for a server with both options set. -/
def optionsRequest : Request :=
  { leftoverRequest with
    imgDomain := some (Text.of (ascii "http://d"))
    imgUrl := some (Text.of (ascii "http:\\/\\/i")) }

/-- A template as the administrators write them. -/
def bannerTemplate : Template :=
  let chars (s : String) : Template := (ascii s).map fun c => .piece (.char c)
  chars "\x7b\"id\":\"" ++ [.piece (.marker .sessionid)] ++ chars "\",\"img\":\"" ++
    [.img (.marker .imgdomain :: (ascii "\\/a_").map .char ++ [.marker .imgsize]),
      .url ((ascii "http:\\/\\/l").map .char)] ++
    chars "\"$\x7b" ++ [.piece (.marker .cbimp), .piece (.marker .format)] ++ chars "\x7d"

theorem body_expanded_banner :
    bodyOf (optionsRequest.env (optionsRequest.sessionId 0)) bannerTemplate.text =
      some ((optionsRequest.env (optionsRequest.sessionId 0)).expand bannerTemplate) := by
  have hwidth : optionsRequest.nearWidth = some (some (Text.of (ascii "320X50"))) := by
    decide +kernel
  set e := optionsRequest.env (optionsRequest.sessionId 0) with he
  have hfits : ∀ m, e.Fits m := by
    intro m
    cases m with
    | format => exact (show e.formatText.length < 128 by decide +kernel)
    | cbimp => exact (show (e.query (ascii "/v2/cbimp")).length < 1024 by decide +kernel)
    | cbclk => exact (show (e.query (ascii "/v2/cbclk")).length < 1024 by decide +kernel)
    | _ => trivial
  have hset : ∀ m, e.OptionsSet m := by
    intro m
    cases m with
    | imgdomain => exact ⟨rfl, rfl⟩
    | cbimp | cbclk => rfl
    | _ => trivial
  have hsections : ∀ p ∈ bannerTemplate, ∀ content ∈ p.content,
      (e.expandPieces content).length < 1024 ∧
        ((e.expandPieces content).filter (· ≠ 92)).length < 400 := by
    decide +kernel
  refine (body_expanded optionsRequest hwidth 0 ⟨fun _ _ m _ => hfits m, hsections⟩
    ⟨?_, ?_, ?_, fun _ _ m _ => hset m⟩).1
  · decide +kernel
  · decide +kernel
  · decide +kernel

/-- `a{$ImgDomain$}b` -/
def lostTemplate : Template :=
  [.piece (.char 97), .piece (.marker .imgdomain), .piece (.char 98)]

/-- Without the option the text before the marker is lost along with it. -/
theorem text_lost : ¬ ∀ (r : Request) (width : Text), r.nearWidth = some (some width) →
    ∀ (k : Nat) (t : Template), Plain t.atoms → t.Fits (r.env (r.sessionId k)) →
      bodyOf (r.env (r.sessionId k)) t.text = some ((r.env (r.sessionId k)).expand t) := by
  intro h
  have hwidth : leftoverRequest.nearWidth = some (some (Text.of (ascii "320X50"))) := by
    decide +kernel
  have hfits : lostTemplate.Fits (leftoverRequest.env (leftoverRequest.sessionId 0)) := by
    constructor
    · intro p hp m hm
      simp only [lostTemplate, List.mem_cons, List.not_mem_nil, or_false] at hp
      rcases hp with rfl | rfl | rfl
      · cases List.mem_singleton.1 hm
      · cases List.mem_singleton.1 hm
        trivial
      · cases List.mem_singleton.1 hm
    · decide +kernel
  have hbody := h leftoverRequest _ hwidth 0 lostTemplate (by decide +kernel) hfits
  have hlost : bodyOf (leftoverRequest.env (leftoverRequest.sessionId 0)) lostTemplate.text =
      some (ascii "b") := by
    decide +kernel
  rw [hlost] at hbody
  have hkept : (leftoverRequest.env (leftoverRequest.sessionId 0)).expand lostTemplate =
      ascii "ab" := by
    decide +kernel
  rw [hkept] at hbody
  cases hbody

end Doorhinges.AdBody
