import FlatAidl.Emission.Stream
import FlatAidl.Proofs.Emission.Store
import FlatAidl.Proofs.Text.Utf8
import Mathlib.Data.List.Induction

/-!
Streams on files in memory, whatever order they are used in. What a stream holds is read off the
actions since it was opened, and what a path holds off the last action that put something there; the
store agrees with both after every action. Main statement: a path holds the whole buffer of the
stream that was the last one to commit there, and nothing if there was none.
-/

namespace FlatAidl

/-- What can be done with streams; each goes by the number of streams opened before it. -/
inductive StreamAction where
  | openAt (p : Path)
  | write (n : Nat) (bytes : Bytes)
  | flush (n : Nat)
  | close (n : Nat)
deriving DecidableEq

namespace StreamAction

def opens : StreamAction → Bool
  | openAt _ => true
  | _ => false

/-- How many streams actions open. -/
def opened (actions : List StreamAction) : Nat :=
  actions.countP opens

/-- What an action adds to the buffer of a stream. -/
def added (n : Nat) : StreamAction → Bytes
  | write m bytes => if m = n then bytes else []
  | _ => []

/-- Whether a stream is open behind some actions, on a path and with some bytes in its buffer: those
that it was given since it was opened. -/
def Holds (actions : List StreamAction) (n : Nat) (p : Path) (bytes : Bytes) : Prop :=
  ∃ before since, actions = before ++ openAt p :: since ∧ opened before = n ∧
    close n ∉ since ∧ bytes = since.flatMap (added n)

/-- Whether an action behind some actions puts a text at a path: it is a flush or the end of a
stream there, and the buffer is the encoding of the text. -/
def Commits (actions : List StreamAction) (a : StreamAction) (p : Path) (t : Text) : Prop :=
  ∃ n q, (a = flush n ∨ a = close n) ∧ Holds actions n q (Utf8.encode t) ∧
    q.components = p.components

/-- Whether a text is what the last commit at a path put there. -/
def LastCommitted (actions : List StreamAction) (p : Path) (t : Text) : Prop :=
  ∃ front a back, actions = front ++ a :: back ∧ Commits front a p t ∧
    ∀ middle b rest u, back = middle ++ b :: rest → ¬ Commits (front ++ a :: middle) b p u

end StreamAction

namespace StreamStore

open StreamAction

/-- The store after an action; a refused one changes nothing. -/
def perform (s : StreamStore) : StreamAction → StreamStore
  | .openAt p => s.openAt p
  | .write n bytes =>
    match s.write n bytes with
    | .ok after => after
    | .error _ => s
  | .flush n =>
    match s.flush n with
    | .ok after => after
    | .error _ => s
  | .close n => s.close n

/-- The store that actions lead to. -/
def play (actions : List StreamAction) : StreamStore :=
  actions.foldl perform empty

theorem play_concat (actions : List StreamAction) (a : StreamAction) :
    play (actions ++ [a]) = (play actions).perform a :=
  List.foldl_concat ..

end StreamStore

/-! ### Buffers by their history -/

namespace StreamAction

variable {actions : List StreamAction} {a : StreamAction} {n : Nat} {p : Path} {bytes : Bytes}

/-- A place in a list with one more element is the last one, or a place in front of it. -/
theorem concat_eq_append_cons_iff {front back : List StreamAction} {b : StreamAction} :
    actions ++ [a] = front ++ b :: back ↔
      (actions = front ∧ a = b ∧ back = []) ∨
        ∃ middle, actions = front ++ b :: middle ∧ back = middle ++ [a] := by
  constructor
  · intro h
    cases back using List.reverseRecOn with
    | nil =>
      obtain ⟨hfront, hlast⟩ := List.append_inj' h rfl
      exact Or.inl ⟨hfront, List.singleton_inj.1 hlast, rfl⟩
    | append_singleton middle c =>
      rw [← List.cons_append, ← List.append_assoc] at h
      obtain ⟨hfront, hlast⟩ := List.append_inj' h rfl
      exact Or.inr ⟨middle, hfront, by rw [hlast]⟩
  · rintro (⟨rfl, rfl, rfl⟩ | ⟨middle, rfl, rfl⟩)
    · rfl
    · rw [List.append_assoc, List.cons_append]

theorem holds_concat : Holds (actions ++ [a]) n p bytes ↔
    (a = openAt p ∧ opened actions = n ∧ bytes = []) ∨
      (a ≠ close n ∧ ∃ front, Holds actions n p front ∧ bytes = front ++ added n a) := by
  constructor
  · rintro ⟨before, since, hactions, hopened, hclose, rfl⟩
    rcases concat_eq_append_cons_iff.1 hactions with ⟨rfl, rfl, rfl⟩ | ⟨since, rfl, rfl⟩
    · exact Or.inl ⟨rfl, hopened, rfl⟩
    · rw [List.mem_append, List.mem_singleton, not_or] at hclose
      obtain ⟨hbefore, hne⟩ := hclose
      refine Or.inr ⟨Ne.symm hne, _, ⟨before, since, rfl, hopened, hbefore, rfl⟩, ?_⟩
      rw [List.flatMap_append, List.flatMap_singleton]
  · rintro (⟨rfl, hopened, rfl⟩ | ⟨hne, front, hholds, rfl⟩)
    · exact ⟨actions, [], rfl, hopened, List.not_mem_nil, rfl⟩
    · obtain ⟨before, since, rfl, hopened, hclose, rfl⟩ := hholds
      refine ⟨before, since ++ [a], by simp, hopened, ?_, ?_⟩
      · rw [List.mem_append, List.mem_singleton, not_or]
        exact ⟨hclose, Ne.symm hne⟩
      · rw [List.flatMap_append, List.flatMap_singleton]

/-- Further actions that do not close a stream add to its buffer. -/
theorem Holds.append (h : Holds actions n p bytes) {more : List StreamAction}
    (hmore : close n ∉ more) : Holds (actions ++ more) n p (bytes ++ more.flatMap (added n)) := by
  obtain ⟨before, since, rfl, hopened, hclose, rfl⟩ := h
  refine ⟨before, since ++ more, by simp, hopened, ?_, ?_⟩
  · rw [List.mem_append, not_or]
    exact ⟨hclose, hmore⟩
  · rw [List.flatMap_append]

end StreamAction

namespace StreamStore

open StreamAction

variable {s after : StreamStore}

theorem stream?_openAt (s : StreamStore) (p : Path) :
    (s.openAt p).stream? =
      Function.update s.stream? s.streams.length (some ⟨p, [], true⟩) := by
  funext n
  by_cases hn : n = s.streams.length
  · subst hn
    simp [stream?, openAt]
  · rw [Function.update_of_ne hn]
    simp only [stream?, openAt, List.getElem?_append]
    split
    · rfl
    · next hlt =>
      have hbeyond : s.streams[n]? = none := List.getElem?_eq_none (by omega)
      have hlast : n - s.streams.length ≠ 0 := by omega
      rw [hbeyond, List.getElem?_singleton, if_neg hlast]

theorem lt_length_of_stream? {n : Nat} {stream : FileStream} (h : s.stream? n = some stream) :
    n < s.streams.length := by
  obtain ⟨hget, _⟩ := Option.filter_eq_some_iff.1 h
  exact (List.getElem?_eq_some_iff.1 hget).1

theorem isOpen_of_stream? {n : Nat} {stream : FileStream} (h : s.stream? n = some stream) :
    stream.isOpen = true :=
  (Option.filter_eq_some_iff.1 h).2

/-- Replacing a stream of the list replaces it where streams are looked up. -/
theorem stream?_set {n : Nat} {stream : FileStream} (hn : n < s.streams.length)
    (h : after.streams = s.streams.set n stream) :
    after.stream? = Function.update s.stream? n (if stream.isOpen then some stream else none) := by
  funext m
  by_cases hm : m = n
  · subst hm
    rw [Function.update_self]
    simp only [stream?, h, List.getElem?_set_self hn, Option.filter_some]
  · rw [Function.update_of_ne hm]
    simp only [stream?, h, List.getElem?_set_ne (Ne.symm hm)]

/-! ### What an action does -/

/-- The text that an action puts at a path: a flush or the end of an open stream puts its buffer
there, if that is UTF-8. -/
def put? (s : StreamStore) : StreamAction → Option (Path × Text)
  | .flush n | .close n =>
    (s.stream? n).bind fun stream => (Utf8.decode? stream.bytes).map fun t => (stream.path, t)
  | .openAt _ | .write _ _ => none

theorem perform_write {n : Nat} {stream : FileStream} (h : s.stream? n = some stream)
    (bytes : Bytes) : s.perform (.write n bytes) =
      { s with streams := s.streams.set n { stream with bytes := stream.bytes ++ bytes } } := by
  simp only [perform, write, h]

theorem perform_write_of_none {n : Nat} (h : s.stream? n = none) (bytes : Bytes) :
    s.perform (.write n bytes) = s := by
  simp only [perform, write, h]

/-- A flush changes no stream, also if nothing comes of it. -/
theorem perform_flush (s : StreamStore) (n : Nat) : s.perform (.flush n) =
    { s with files := (s.put? (.flush n)).elim s.files fun e => s.files.put e.1 e.2 } := by
  cases hstream : s.stream? n with
  | none => simp [perform, flush, put?, hstream]
  | some stream =>
    cases htext : Utf8.decode? stream.bytes with
    | none => simp [perform, flush, commit, put?, hstream, htext]
    | some t => simp [perform, flush, commit, put?, hstream, htext]

/-- Closing a stream is a flush and the end of the stream, also if nothing comes of the flush. -/
theorem perform_close {n : Nat} {stream : FileStream} (h : s.stream? n = some stream) :
    s.perform (.close n) = { s.perform (.flush n) with
      streams := s.streams.set n { stream with isOpen := false } } := by
  have hstreams : (s.perform (.flush n)).streams = s.streams := by rw [perform_flush]
  rw [← hstreams]
  cases hcommit : s.commit stream with
  | ok after => simp only [perform, close, flush, h, hcommit]
  | error e => simp only [perform, close, flush, h, hcommit]

theorem perform_close_of_none {n : Nat} (h : s.stream? n = none) : s.perform (.close n) = s := by
  simp only [perform, close, h]

theorem files_perform (s : StreamStore) (a : StreamAction) :
    (s.perform a).files = (s.put? a).elim s.files fun e => s.files.put e.1 e.2 := by
  cases a with
  | openAt p => rfl
  | write n bytes =>
    cases hstream : s.stream? n with
    | none => rw [perform_write_of_none hstream, put?, Option.elim_none]
    | some stream => rw [perform_write hstream, put?, Option.elim_none]
  | flush n => rw [perform_flush]
  | close n =>
    cases hstream : s.stream? n with
    | none => simp [perform_close_of_none hstream, put?, hstream]
    | some stream =>
      rw [perform_close hstream, perform_flush]
      rfl

/-- Only opening a stream makes the list of streams longer. -/
theorem length_perform (s : StreamStore) (a : StreamAction) :
    (s.perform a).streams.length = s.streams.length + opened [a] := by
  cases a with
  | openAt p => simp [perform, openAt, opened, opens]
  | write n bytes =>
    cases hstream : s.stream? n with
    | none => simp [perform_write_of_none hstream, opened, opens]
    | some stream => simp [perform_write hstream, opened, opens]
  | flush n => simp [perform_flush, opened, opens]
  | close n =>
    cases hstream : s.stream? n with
    | none => simp [perform_close_of_none hstream, opened, opens]
    | some stream => simp [perform_close hstream, opened, opens]

/-- An open stream is one that was opened just now, or it was open before and was given what the
action adds to it. -/
theorem stream?_perform {a : StreamAction} {n : Nat} {p : Path} {bytes : Bytes} :
    (s.perform a).stream? n = some ⟨p, bytes, true⟩ ↔
      (a = .openAt p ∧ s.streams.length = n ∧ bytes = []) ∨
        (a ≠ .close n ∧ ∃ front, s.stream? n = some ⟨p, front, true⟩ ∧
          bytes = front ++ added n a) := by
  cases a with
  | openAt q =>
    rw [perform, stream?_openAt]
    by_cases hn : n = s.streams.length
    · subst hn
      have hnone : s.stream? s.streams.length = none := by
        rw [Option.eq_none_iff_forall_ne_some]
        intro stream hstream
        exact Nat.lt_irrefl _ (lt_length_of_stream? hstream)
      simp [hnone, eq_comm]
    · simp [Function.update_of_ne hn, Ne.symm hn, added]
  | write m more =>
    cases hm : s.stream? m with
    | none =>
      rw [perform_write_of_none hm]
      by_cases hn : m = n
      · subst hn
        simp [hm]
      · simp [added, hn]
    | some stream =>
      obtain ⟨q, front, hopen⟩ := stream
      obtain rfl : hopen = true := isOpen_of_stream? hm
      rw [perform_write hm, stream?_set (lt_length_of_stream? hm) rfl]
      by_cases hn : m = n
      · subst hn
        simp [hm, added, eq_comm]
      · simp [Function.update_of_ne (Ne.symm hn), added, hn]
  | flush m =>
    have hsame : (s.perform (.flush m)).stream? n = s.stream? n := by
      rw [perform_flush]
      rfl
    simp [hsame, added]
  | close m =>
    cases hm : s.stream? m with
    | none =>
      rw [perform_close_of_none hm]
      by_cases hn : m = n
      · subst hn
        simp [hm]
      · simp [added, hn]
    | some stream =>
      rw [perform_close hm, stream?_set (lt_length_of_stream? hm) rfl]
      by_cases hn : m = n
      · subst hn
        simp
      · simp [Function.update_of_ne (Ne.symm hn), added, hn]

/-! ### What a history leads to -/

variable {actions : List StreamAction} {a : StreamAction} {n : Nat} {p : Path} {bytes : Bytes}
  {t : Text}

theorem length_play (actions : List StreamAction) :
    (play actions).streams.length = opened actions := by
  induction actions using List.reverseRecOn with
  | nil => rfl
  | append_singleton actions a ih =>
    rw [play_concat, length_perform, ih, opened, opened, opened, List.countP_append]

/-- The streams that are open are those that the history tells. -/
theorem stream?_play :
    (play actions).stream? n = some ⟨p, bytes, true⟩ ↔ Holds actions n p bytes := by
  induction actions using List.reverseRecOn generalizing bytes with
  | nil =>
    constructor
    · intro h
      cases h
    · rintro ⟨before, since, hactions, _⟩
      simp at hactions
  | append_singleton actions a ih =>
    rw [play_concat, stream?_perform, holds_concat, length_play]
    simp only [ih]

theorem commits_iff : Commits actions a p t ↔
    ∃ q, (play actions).put? a = some (q, t) ∧ q.components = p.components := by
  have hput : ∀ n q, ((play actions).stream? n).bind (fun stream =>
      (Utf8.decode? stream.bytes).map fun u => (stream.path, u)) = some (q, t) ↔
        Holds actions n q (Utf8.encode t) := by
    intro n q
    rw [← stream?_play]
    constructor
    · intro h
      obtain ⟨⟨r, front, hopen⟩, hstream, h⟩ := Option.bind_eq_some_iff.1 h
      obtain ⟨u, htext, h⟩ := Option.map_eq_some_iff.1 h
      cases h
      obtain rfl : hopen = true := isOpen_of_stream? hstream
      obtain rfl : front = Utf8.encode t := Utf8.eq_encode_of_decode? htext
      exact hstream
    · intro h
      rw [h, Option.bind_some, Utf8.decode?_encode, Option.map_some]
  cases a with
  | openAt r => simp [Commits, put?]
  | write m more => simp [Commits, put?]
  | flush m => simp [Commits, put?, hput]
  | close m => simp [Commits, put?, hput]

/-- A last commit is the last action, or it was one before and the last action is none there. -/
theorem lastCommitted_concat : LastCommitted (actions ++ [a]) p t ↔
    Commits actions a p t ∨ (∀ u, ¬ Commits actions a p u) ∧ LastCommitted actions p t := by
  constructor
  · rintro ⟨front, b, back, hactions, hcommits, hlast⟩
    rcases concat_eq_append_cons_iff.1 hactions with ⟨rfl, rfl, rfl⟩ | ⟨back, rfl, rfl⟩
    · exact Or.inl hcommits
    · refine Or.inr ⟨fun u => hlast back a [] u rfl, front, b, back, rfl, hcommits, ?_⟩
      rintro middle c rest u rfl
      exact hlast middle c (rest ++ [a]) u (by simp)
  · rintro (hcommits | ⟨hnone, front, b, back, rfl, hcommits, hlast⟩)
    · refine ⟨actions, a, [], rfl, hcommits, ?_⟩
      intro middle b rest u hback
      simp at hback
    · refine ⟨front, b, back ++ [a], by simp, hcommits, ?_⟩
      intro middle c rest u hback
      rcases concat_eq_append_cons_iff.1 hback with ⟨rfl, rfl, rfl⟩ | ⟨rest, rfl, rfl⟩
      · exact hnone u
      · exact hlast middle c rest u rfl

theorem get?_play : (play actions).files.get? p = some t ↔ LastCommitted actions p t := by
  induction actions using List.reverseRecOn generalizing t with
  | nil =>
    constructor
    · intro h
      cases h
    · rintro ⟨front, a, back, hactions, _⟩
      simp at hactions
  | append_singleton actions a ih =>
    rw [play_concat, files_perform, lastCommitted_concat, ← ih]
    simp only [commits_iff]
    cases hput : (play actions).put? a with
    | none => simp
    | some e =>
      obtain ⟨q, u⟩ := e
      rw [Option.elim_some, FileMap.get?_eq_textAt, FileMap.textAt_put, Function.update_apply]
      by_cases hplace : p.components = q.components
      · simp [hplace]
      · simp [hplace, Ne.symm hplace, FileMap.get?_eq_textAt]

/-- Where something was committed, some commit was the last. -/
theorem exists_lastCommitted {front back : List StreamAction} (h : Commits front a p t) :
    ∃ u, LastCommitted (front ++ a :: back) p u := by
  induction back using List.reverseRecOn with
  | nil => exact ⟨t, lastCommitted_concat.2 (Or.inl h)⟩
  | append_singleton back b ih =>
    obtain ⟨u, hlast⟩ := ih
    rw [← List.cons_append, ← List.append_assoc]
    simp only [lastCommitted_concat]
    by_cases hb : ∃ v, Commits (front ++ a :: back) b p v
    · obtain ⟨v, hb⟩ := hb
      exact ⟨v, Or.inl hb⟩
    · exact ⟨u, Or.inr ⟨not_exists.1 hb, hlast⟩⟩

theorem get?_play_eq_none_iff : (play actions).files.get? p = none ↔
    ∀ front a back, actions = front ++ a :: back → ∀ t, ¬ Commits front a p t := by
  rw [Option.eq_none_iff_forall_ne_some]
  constructor
  · rintro hnone front a back rfl t hcommits
    obtain ⟨u, hlast⟩ := exists_lastCommitted hcommits
    exact hnone u (get?_play.2 hlast)
  · intro hnone t ht
    obtain ⟨front, a, back, hactions, hcommits, _⟩ := get?_play.1 ht
    exact hnone front a back hactions t hcommits

theorem flush_play (h : Holds actions n p bytes) :
    (play actions).flush n = (play actions).commit ⟨p, bytes, true⟩ := by
  simp only [flush, stream?_play.2 h]

/-- A flush of what is no UTF-8 is refused, and nothing comes of it. -/
theorem flush_play_of_not_encode (h : Holds actions n p bytes) (hbad : ∀ t, bytes ≠ Utf8.encode t) :
    (play actions).flush n = .error .invalidData ∧
      play (actions ++ [.flush n]) = play actions := by
  have hdecode : Utf8.decode? bytes = none := by
    rw [Option.eq_none_iff_forall_ne_some]
    intro t ht
    exact hbad t (Utf8.eq_encode_of_decode? ht)
  have hflush : (play actions).flush n = .error .invalidData := by
    simp only [flush_play h, commit, hdecode]
  refine ⟨hflush, ?_⟩
  rw [play_concat]
  simp only [perform, hflush]

/-- A flush of UTF-8 succeeds, and the whole buffer is at the path of the stream. -/
theorem flush_play_of_encode (h : Holds actions n p (Utf8.encode t)) :
    (play actions).flush n = .ok (play (actions ++ [.flush n])) ∧
      (play (actions ++ [.flush n])).files.get? p = some t := by
  constructor
  · rw [play_concat]
    simp only [perform, flush_play h, commit, Utf8.decode?_encode]
  · exact get?_play.2 (lastCommitted_concat.2 (Or.inl ⟨n, p, Or.inl rfl, h, rfl⟩))

/-- Whatever is done with however many streams, a path holds the whole buffer that the last stream
to commit there had by then, and nothing if none has. A buffer that is no UTF-8 is refused and kept:
once more bytes make it UTF-8, whatever else was done meanwhile, a flush puts all of it there. -/
theorem play_holds_last_commits (actions : List StreamAction) :
    (∀ p t, (play actions).files.get? p = some t ↔ LastCommitted actions p t) ∧
    (∀ p, (play actions).files.get? p = none ↔
      ∀ front a back, actions = front ++ a :: back → ∀ t, ¬ Commits front a p t) ∧
    (∀ n p bytes, Holds actions n p bytes → (∀ t, bytes ≠ Utf8.encode t) →
      (play actions).flush n = .error .invalidData ∧
        play (actions ++ [.flush n]) = play actions) ∧
    (∀ n p bytes more t, Holds actions n p bytes → .close n ∉ more →
      bytes ++ more.flatMap (added n) = Utf8.encode t →
        (play (actions ++ more)).flush n = .ok (play (actions ++ more ++ [.flush n])) ∧
          (play (actions ++ more ++ [.flush n])).files.get? p = some t) := by
  refine ⟨fun p t => get?_play, fun p => get?_play_eq_none_iff, ?_, ?_⟩
  · intro n p bytes hholds hbad
    exact flush_play_of_not_encode hholds hbad
  · intro n p bytes more t hholds hmore henc
    exact flush_play_of_encode (henc ▸ hholds.append hmore)

/-- Two streams on one file; the first has committed there, and the second is inside a character. -/
def sharedFile : List StreamAction :=
  [.openAt (Text.ofString "out//a.txt"), .openAt (Text.ofString "out/a.txt"), .write 0 [0x68],
    .flush 0, .write 1 [0xC3]]

/-- Both streams go on. -/
def sharedFileOn : List StreamAction :=
  [.flush 1, .write 0 [0x69], .write 1 [0xA9], .close 0]

theorem sharedFile_holds_last_commits :
    LastCommitted sharedFile (Text.ofString "out/a.txt") (Text.ofString "h") ∧
      LastCommitted (sharedFile ++ sharedFileOn) (Text.ofString "out/a.txt") (Text.ofString "hi") ∧
      (play sharedFile).flush 1 = .error .invalidData ∧
      play (sharedFile ++ [.flush 1]) = play sharedFile ∧
      (play (sharedFile ++ sharedFileOn)).flush 1 =
        .ok (play (sharedFile ++ sharedFileOn ++ [.flush 1])) ∧
      (play (sharedFile ++ sharedFileOn ++ [.flush 1])).files.get? (Text.ofString "out/a.txt") =
        some (Text.ofString "é") := by
  have hholds : Holds sharedFile 1 (Text.ofString "out/a.txt") [0xC3] :=
    ⟨[.openAt (Text.ofString "out//a.txt")], [.write 0 [0x68], .flush 0, .write 1 [0xC3]], rfl, rfl,
      by decide, rfl⟩
  have hcut : ∀ t, [0xC3] ≠ Utf8.encode t := by
    intro t ht
    have hdecode : Utf8.decode? [0xC3] = some t := Utf8.decode?_eq_some_iff.2 ht
    cases hdecode
  have hwhole : [0xC3] ++ sharedFileOn.flatMap (added 1) = Utf8.encode (Text.ofString "é") := by
    decide
  obtain ⟨hlast, _, hrefused, htaken⟩ := play_holds_last_commits sharedFile
  obtain ⟨hflush, hsame⟩ := hrefused 1 _ _ hholds hcut
  obtain ⟨hflushOn, hput⟩ := htaken 1 _ _ sharedFileOn _ hholds (by decide) hwhole
  refine ⟨(hlast _ _).1 (by decide), ?_, hflush, hsame, hflushOn, hput⟩
  exact ((play_holds_last_commits (sharedFile ++ sharedFileOn)).1 _ _).1 (by decide)

end StreamStore

end FlatAidl
