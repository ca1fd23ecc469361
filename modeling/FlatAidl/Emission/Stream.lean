import FlatAidl.Emission.FileMap
import FlatAidl.Text.Utf8

/-!
Files kept in memory and written through streams. A stream gathers bytes; a commit, by a flush or by
closing the stream, puts all bytes so far at the stream's path, if they are UTF-8. Several streams
may be open on one path, and the last commit decides.
-/

namespace FlatAidl

/-- A stream: where its file is, the bytes so far, and whether it still takes more. -/
structure FileStream where
  path : Path
  bytes : Bytes
  isOpen : Bool
deriving DecidableEq

/-- The files in memory and the streams in the order in which they were opened. -/
structure StreamStore where
  files : FileMap
  streams : List FileStream
deriving DecidableEq

inductive StreamError where
  /-- The bytes so far are not UTF-8. -/
  | invalidData
  /-- There is no open stream of that number. -/
  | closed
deriving DecidableEq

namespace StreamStore

def empty : StreamStore :=
  ⟨FileMap.empty, []⟩

/-- Opens a stream on a path; nothing is put there yet. -/
def openAt (s : StreamStore) (p : Path) : StreamStore :=
  { s with streams := s.streams ++ [⟨p, [], true⟩] }

def stream? (s : StreamStore) (n : Nat) : Option FileStream :=
  s.streams[n]?.filter FileStream.isOpen

def write (s : StreamStore) (n : Nat) (bytes : Bytes) : Except StreamError StreamStore :=
  match s.stream? n with
  | none => .error .closed
  | some stream =>
    .ok { s with streams := s.streams.set n { stream with bytes := stream.bytes ++ bytes } }

/-- Puts a stream's bytes at its path, if they are UTF-8. -/
def commit (s : StreamStore) (stream : FileStream) : Except StreamError StreamStore :=
  match Utf8.decode? stream.bytes with
  | some t => .ok { s with files := s.files.put stream.path t }
  | none => .error .invalidData

def flush (s : StreamStore) (n : Nat) : Except StreamError StreamStore :=
  match s.stream? n with
  | none => .error .closed
  | some stream => s.commit stream

/-- Closes a stream; its bytes are committed if they are UTF-8, and lost otherwise. Closing a
closed stream does nothing. -/
def close (s : StreamStore) (n : Nat) : StreamStore :=
  match s.stream? n with
  | none => s
  | some stream =>
    let committed := match s.commit stream with
      | .ok after => after
      | .error _ => s
    { committed with streams := committed.streams.set n { stream with isOpen := false } }

def closeAll (s : StreamStore) : StreamStore :=
  (List.range s.streams.length).foldl close s

end StreamStore

end FlatAidl
