import Mathlib.Data.Int.Notation
import Mathlib.Data.List.Basic
import Reargo.RelyGuarantee

/-!
# The cache of analysis results

What a command does to the files: it takes stats and digests for its keys, reads what is
stored under them, and stores what it had to compute.
-/
namespace AnalysisCache

open RelyGuarantee

/-- A file's `stat`, the times in nanoseconds since the epoch. The modification time is the
owner's to set; the change time comes from the clock. -/
structure Stamp where
  dev : ℕ
  ino : ℕ
  size : ℕ
  mtime : ℤ
  ctime : ℕ
  deriving DecidableEq

def Stamp.newest (s : Stamp) : ℤ := max s.mtime s.ctime

def second : ℕ := 1000000000

def racy : ℕ := 3 * second

inductive CacheUse where
  | readWrite
  | refresh
  deriving DecidableEq

/-- A command: the binary's path and what it stands for, the executable that runs, what the
file of the binary's name in the working directory is (`none` for a path without a name,
`some none` where there is none), whether it has a cache entry, and how many of the reads of
that entry come before the binary is loaded beside them. -/
structure Ask (P : Type) where
  path : P
  canonical : P
  exe : P
  cwdName : Option (Option P)
  located : Bool
  cacheUse : CacheUse
  loadAt : ℕ

inductive CwdName (φ : Type) where
  | unnamed
  | same
  | other (v : φ)
  | absent
  deriving DecidableEq

/-- What a key is the hash of, `φ` being what it takes of each file. -/
structure Fields (P C φ : Type) where
  exe : φ
  path : P
  binary : φ
  cwdName : CwdName φ
  sidecar : Option C
  sidecarArg : Option (Option C)
  deriving DecidableEq

section Types

variable (P C D R : Type)

structure PreKey where
  key : Fields P C Stamp
  stamps : List (P × Stamp)

/-- The full key, of a length and a digest for each file. -/
structure FullKey where
  key : Fields P C (ℕ × D)
  preTrusted : Bool

structure Entry where
  ask : Ask P
  pre : Option (PreKey P C)

/-- A cache file with an intact header; its sections may still fail to decode. -/
structure CacheFile where
  key : Fields P C (ℕ × D)
  prekey : Option (Fields P C Stamp)
  results : Option R

/-- A binary's bytes with the results of their analysis. -/
structure Program where
  binary : C
  results : R

inductive Sidecar where
  | found (c : C)
  | notFound
  | failed

inductive Op where
  | now
  | stat (p : P)
  | read (p : P)
  | load (p : P)
  | readSidecar (p : P)
  | openCache (p : P)
  | writePrekey (p : P) (key : Fields P C (ℕ × D)) (prekey : Fields P C Stamp)
  | replace (p : P) (file : CacheFile P C D R) (program : Program C R)
  | readDigestMemo (exe : P) (st : Stamp)
  | writeDigestMemo (exe : P) (st : Stamp) (d : ℕ × D)

end Types

variable {P C D R : Type}

/-- What each call gives; reads of every kind may fail. -/
def Resp : Op P C D R → Type
  | .now => ℕ
  | .stat _ => Option Stamp
  | .read _ => Option C
  | .load _ => Option C
  | .readSidecar _ => Sidecar C
  | .openCache _ => Option (CacheFile P C D R)
  | .writePrekey _ _ _ => Unit
  | .replace _ _ _ => Unit
  | .readDigestMemo _ _ => Option (ℕ × D)
  | .writeDigestMemo _ _ _ => Unit

abbrev Cmd (P C D R α : Type) : Type := Prog (@Resp P C D R) α

section Calls

def now : Cmd P C D R ℕ := Prog.act Op.now

def stat (p : P) : Cmd P C D R (Option Stamp) := Prog.act (Op.stat p)

def readBytes (p : P) : Cmd P C D R (Option C) := Prog.act (Op.read p)

def load (p : P) : Cmd P C D R (Option C) := Prog.act (Op.load p)

def readSidecar (p : P) : Cmd P C D R (Sidecar C) := Prog.act (Op.readSidecar p)

def openCache (p : P) : Cmd P C D R (Option (CacheFile P C D R)) := Prog.act (Op.openCache p)

def writePrekey (p : P) (key : Fields P C (ℕ × D)) (prekey : Fields P C Stamp) :
    Cmd P C D R Unit := Prog.act (Op.writePrekey p key prekey)

def replace (p : P) (file : CacheFile P C D R) (program : Program C R) : Cmd P C D R Unit :=
  Prog.act (Op.replace p file program)

def readDigestMemo (exe : P) (st : Stamp) : Cmd P C D R (Option (ℕ × D)) :=
  Prog.act (Op.readDigestMemo exe st)

def writeDigestMemo (exe : P) (st : Stamp) (d : ℕ × D) : Cmd P C D R Unit :=
  Prog.act (Op.writeDigestMemo exe st d)

end Calls

section Commands

variable [DecidableEq P] [DecidableEq C] [DecidableEq D]
  (len : C → ℕ) (blake3 : C → D) (sidecarPath : P → P) (analyse : C → R)

def digest (c : C) : ℕ × D := (len c, blake3 c)

/-- A file that changed size while it was read is no stable input. -/
def fileDigest (p : P) : Cmd P C D R (Option (ℕ × D)) :=
  (stat p).andThen fun s => (readBytes p).andThen fun c =>
      .pure (if len c = s.size then some (digest len blake3 c) else none)

def settled (before : Stamp) (start : ℕ) : Bool :=
  decide (before.newest < ((start - racy : ℕ) : ℤ))

def exeDigest (exe : P) : Cmd P C D R (Option (ℕ × D)) :=
  (stat exe).bind fun s => match s with
    | none => fileDigest len blake3 exe
    | some before =>
      (readDigestMemo exe before).bind fun memo => match memo with
        | some d => .pure (some d)
        | none =>
          now.bind fun start => (fileDigest len blake3 exe).andThen fun d =>
              if settled before start then
                (stat exe).bind fun now => if now = some before then
                    (writeDigestMemo exe before d).bind fun _ => .pure (some d)
                  else .pure (some d)
              else .pure (some d)

/-- The file of the binary's name in the working directory, an input like the binary. -/
def cwdField {φ : Type} (a : Ask P) (file : P → Cmd P C D R (Option φ)) :
    Cmd P C D R (Option (CwdName φ × List (P × φ))) :=
  match a.cwdName with
  | none => .pure (some (.unnamed, []))
  | some none => .pure (some (.absent, []))
  | some (some c) =>
    if c = a.canonical then .pure (some (.same, []))
    else (file c).andThen fun v => .pure (some (.other v, [(c, v)]))

def sidecarField (p : P) : Cmd P C D R (Option (Option C)) :=
  (readSidecar p).bind fun r => match r with
    | .found c => .pure (some (some c))
    | .notFound => .pure (some none)
    | .failed => .pure none

def sidecarArgField (a : Ask P) : Cmd P C D R (Option (Option C)) :=
  if a.canonical = a.path then .pure none
  else
    (readSidecar (sidecarPath a.path)).bind fun r => match r with
      | .found c => .pure (some (some c))
      | _ => .pure (some none)

/-- The inputs of the analysis in the key's order, with what `file` gives for each file. -/
def deriveKey {φ : Type} (a : Ask P) (file : P → Cmd P C D R (Option φ)) :
    Cmd P C D R (Option (Fields P C φ × List (P × φ))) :=
  (file a.exe).andThen fun exe => (file a.canonical).andThen fun binary =>
      (cwdField a file).andThen fun cwd =>
        (sidecarField (sidecarPath a.canonical)).andThen fun sidecar =>
          (sidecarArgField sidecarPath a).bind fun sidecarArg =>
            .pure (some (⟨exe, a.canonical, binary, cwd.1, sidecar, sidecarArg⟩,
              (a.exe, exe) :: (a.canonical, binary) :: cwd.2))

def stampsHold (start : ℕ) : List ((P × Stamp) × P) → Cmd P C D R Bool
  | [] => .pure true
  | ((p, s), f) :: rest =>
    if p = f ∧ settled s start then
      (stat p).bind fun now => if now = some s then stampsHold start rest else .pure false
    else .pure false

def preTrusted (pre : PreKey P C) (files : List P) (start : ℕ) : Cmd P C D R Bool :=
  if pre.stamps.length = files.length then stampsHold start (pre.stamps.zip files)
  else .pure false

def preTrustedOf (pre : Option (PreKey P C)) (files : List P) (start : ℕ) : Cmd P C D R Bool :=
  match pre with
  | none => .pure false
  | some pre => preTrusted pre files start

def keyFile (exe p : P) : Cmd P C D R (Option (ℕ × D)) :=
  if p = exe then exeDigest len blake3 p else fileDigest len blake3 p

def deriveFullKey (e : Entry P C) : Cmd P C D R (Option (FullKey P C D)) :=
  now.bind fun start =>
    (deriveKey sidecarPath e.ask (keyFile len blake3 e.ask.exe)).andThen fun (key, files) =>
      (preTrustedOf e.pre (files.map Prod.fst) start).bind fun t => .pure (some ⟨key, t⟩)

/-- The full key, computed once: `full` is what an earlier call left. -/
def fullKey (e : Entry P C) (full : Option (Option (FullKey P C D))) :
    Cmd P C D R (Option (FullKey P C D)) :=
  match full with
  | some key => .pure key
  | none => deriveFullKey len blake3 sidecarPath e

def preKey (a : Ask P) : Cmd P C D R (Option (PreKey P C)) :=
  (deriveKey sidecarPath a stat).andThen fun (key, stamps) => .pure (some ⟨key, stamps⟩)

def entryFor (a : Ask P) : Cmd P C D R (Option (Entry P C)) :=
  if a.located then (preKey sidecarPath a).bind fun pre => .pure (some ⟨a, pre⟩)
  else .pure none

/-- The stored results, and the full key if it was computed on the way. -/
def read (e : Entry P C) : Cmd P C D R (Option R × Option (Option (FullKey P C D))) :=
  (openCache e.ask.canonical).bind fun file => match file with
    | none => .pure (none, none)
    | some header =>
      if e.pre.isSome ∧ e.pre.map PreKey.key = header.prekey then .pure (header.results, none)
      else
        (fullKey len blake3 sidecarPath e none).bind fun full => match full with
          | none => .pure (none, some none)
          | some k =>
            if k.key = header.key then
              match k.preTrusted, e.pre with
              | true, some pre =>
                (writePrekey e.ask.canonical k.key pre.key).bind fun _ =>
                  .pure (header.results, some (some k))
              | _, _ => .pure (header.results, some (some k))
            else .pure (none, some (some k))

def storedPrekey (e : Entry P C) (k : FullKey P C D) : Option (Fields P C Stamp) :=
  if k.preTrusted then e.pre.map PreKey.key else none

def store (e : Entry P C) (full : Option (Option (FullKey P C D))) (program : Program C R) :
    Cmd P C D R Unit :=
  (fullKey len blake3 sidecarPath e full).bind fun full => match full with
    | none => .pure ()
    | some k =>
      replace e.ask.canonical ⟨k.key, storedPrekey e k, some program.results⟩ program

inductive Outcome (R : Type) where
  | hit (r : R)
  | analysed (r : R)
  | failed
  deriving DecidableEq

def loadBinary (a : Ask P) (loaded : Option (Option C)) : Cmd P C D R (Option C) :=
  match loaded with
  | some c => .pure c
  | none => load a.canonical

def readIfAsked (a : Ask P) (entry : Option (Entry P C)) :
    Cmd P C D R (Option R × Option (Option (FullKey P C D))) :=
  match entry, a.cacheUse with
  | some e, .readWrite => read len blake3 sidecarPath e
  | _, _ => .pure (none, none)

def analyseAndStore (entry : Option (Entry P C)) (full : Option (Option (FullKey P C D)))
    (binary : C) : Cmd P C D R (Outcome R) :=
  match entry with
  | none => .pure (.analysed (analyse binary))
  | some e =>
    (store len blake3 sidecarPath e full ⟨binary, analyse binary⟩).bind fun _ =>
      .pure (.analysed (analyse binary))

/-- The command: the stored results, or the results of the bytes loaded, then stored. -/
def analyzeProgram (a : Ask P) : Cmd P C D R (Outcome R) :=
  (entryFor sidecarPath a).bind fun entry =>
    ((readIfAsked len blake3 sidecarPath a entry).during (.load a.canonical) a.loadAt).bind
      fun (loaded, cached, full) => match cached with
        | some r => .pure (.hit r)
        | none =>
          (loadBinary a loaded).bind fun binary => match binary with
            | none => .pure .failed
            | some c => analyseAndStore len blake3 sidecarPath analyse entry full c

end Commands

section Files

structure File (C : Type) where
  contents : C
  stamp : Stamp

structure Memo (D : Type) where
  stamp : Stamp
  digest : ℕ × D

/-- The clock, what each path has held, newest first, the cache file of each binary, and the
digest kept for each executable. -/
structure World (P C D R : Type) where
  time : ℕ
  files : P → List (File C)
  cache : P → Option (CacheFile P C D R)
  memo : P → Option (Memo D)

variable [DecidableEq P]

/-- One call on the files, at one moment. -/
inductive Act : (o : Op P C D R) → World P C D R → Resp o → World P C D R → Prop where
  | now (w) : Act .now w w.time w
  | statFailed (w p) : Act (.stat p) w (none : Option Stamp) w
  | stat (w p f) : (w.files p).head? = some f → Act (.stat p) w (some f.stamp) w
  | readFailed (w p) : Act (.read p) w (none : Option C) w
  | read (w p f) : (w.files p).head? = some f → Act (.read p) w (some f.contents) w
  | loadFailed (w p) : Act (.load p) w (none : Option C) w
  | load (w p f) : (w.files p).head? = some f → Act (.load p) w (some f.contents) w
  | sidecarFailed (w p) : Act (.readSidecar p) w (.failed : Sidecar C) w
  | sidecarAbsent (w p) : w.files p = [] → Act (.readSidecar p) w (.notFound : Sidecar C) w
  | sidecar (w p f) : (w.files p).head? = some f →
      Act (.readSidecar p) w (.found f.contents : Sidecar C) w
  | openFailed (w p) : Act (.openCache p) w (none : Option (CacheFile P C D R)) w
  | openCache (w p) : Act (.openCache p) w (w.cache p) w
  | prekeyFailed (w p key pre) : Act (.writePrekey p key pre) w () w
  | prekey (w p key pre file) : w.cache p = some file → file.key = key →
      Act (.writePrekey p key pre) w ()
        { w with cache := Function.update w.cache p (some { file with prekey := some pre }) }
  | replaceFailed (w p file program) : Act (.replace p file program) w () w
  | replace (w p file program) : Act (.replace p file program) w ()
      { w with cache := Function.update w.cache p (some file) }
  | memoFailed (w exe st) : Act (.readDigestMemo exe st) w (none : Option (ℕ × D)) w
  | memo (w exe m) : w.memo exe = some m → Act (.readDigestMemo exe m.stamp) w (some m.digest) w
  | keepFailed (w exe st d) : Act (.writeDigestMemo exe st d) w () w
  | keep (w exe st d) : Act (.writeDigestMemo exe st d) w ()
      { w with memo := Function.update w.memo exe (some ⟨st, d⟩) }

/-- The clock goes on, a file is written, a cache file goes or is damaged, a digest goes.
A write's change time is at most two seconds early, and no change time the file had with
other contents. -/
inductive Outside : World P C D R → World P C D R → Prop where
  | tick (w t) : w.time ≤ t → Outside w { w with time := t }
  | write (w p f) : w.time ≤ f.stamp.ctime + 2 * second →
      (∀ g ∈ w.files p, g.stamp.ctime = f.stamp.ctime → g.contents = f.contents) →
      Outside w { w with files := Function.update w.files p (f :: w.files p) }
  | evict (w p) : Outside w { w with cache := Function.update w.cache p none }
  | damage (w p file) : w.cache p = some file → Outside w
      { w with cache := Function.update w.cache p (some { file with results := none }) }
  | forget (w exe) : Outside w { w with memo := Function.update w.memo exe none }

/-- What a command saw of each path: its contents at the last stat, and the contents its
last digest was taken of. -/
structure Notes (P C : Type) where
  stamped : P → Option C
  hashed : P → Option C

def unseen : Notes P C := ⟨fun _ => none, fun _ => none⟩

def note : (o : Op P C D R) → World P C D R → Resp o → Notes P C → Notes P C
  | .stat p, w, _, g =>
    { g with stamped := Function.update g.stamped p ((w.files p).head?.map File.contents) }
  | .read p, _, r, g => { g with hashed := Function.update g.hashed p r }
  -- a kept digest is of the contents the executable had when its stat was taken
  | .readDigestMemo exe _, _, some _, g =>
    { g with hashed := Function.update g.hashed exe (g.stamped exe) }
  | _, _, _, g => g

def files : System (@Resp P C D R) (World P C D R) (Notes P C) where
  act := Act
  outside := Outside
  note := note

/-- What a path held at some moment between two: what was written since, and what it held
at the first. -/
def heldBetween (w₀ w : World P C D R) (p : P) : List (File C) :=
  (w.files p).take ((w.files p).length - (w₀.files p).length + 1)

/-- A program is stored with the digest of the bytes it was loaded from. -/
def HashedAsLoaded : Op P C D R → Notes P C → Prop
  | .replace p _ program, g => g.hashed p = some program.binary
  | _, _ => True

/-- No results stored, no digests kept, and no change time shared by different contents. -/
structure Fresh (w : World P C D R) : Prop where
  cache : ∀ p, w.cache p = none
  memo : ∀ p, w.memo p = none
  stamps : ∀ p, ∀ f ∈ w.files p, ∀ g ∈ w.files p,
    f.stamp.ctime = g.stamp.ctime → f.contents = g.contents

end Files

end AnalysisCache
