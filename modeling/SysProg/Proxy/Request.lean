import Mathlib.Data.UInt
import SysProg.Logic.Buffers
import SysProg.Logic.Scanning
import SysProg.Proxy.Relay

/-!
# The request of `run_thread`

The thread splits the request line into three words, parses the URL, and builds
the request for the server in `req_fwd` from the target and the header lines of
the client.  None of the library calls that fill the arrays is given their
size; the model lists every string that is stored, with the array it is stored
in.
-/

namespace SysProg.Proxy

open Logic

def MAXLINE : Nat := 8192

/-- The characters of a C string, without the terminator. -/
abbrev Text := List UInt8

def colon : UInt8 := 58
def slash : UInt8 := 47
def newline : UInt8 := 10

/-- The arrays for the strings of a request. -/
inductive Buffer where
  | method
  | url
  | version
  | protocol
  | hostname
  | port
  | resource
  | reqFwd
  deriving DecidableEq

def Buffer.size : Buffer → Nat
  | method => 8
  | url => MAXLINE
  | version => 16
  | protocol => 8
  | hostname => MAXLINE
  | port => 8
  | resource => MAXLINE
  | reqFwd => MAXBUF

/-- A string and the array that it is stored in. -/
abbrev Stores := List (Buffer × Text)

/-- Every stored string fits its array together with the terminator. -/
def InBounds (stores : Stores) : Prop := ∀ s ∈ stores, s.2.length < s.1.size

theorem inBounds_append {stores stores' : Stores} :
    InBounds (stores ++ stores') ↔ InBounds stores ∧ InBounds stores' :=
  List.forall_mem_append

/-! ## Library calls -/

def isspace (c : UInt8) : Bool := c = 32 ∨ 9 ≤ c ∧ c ≤ 13

def tolower (c : UInt8) : UInt8 := if 65 ≤ c ∧ c ≤ 90 then c + 32 else c

/-- The string at the start of an array. -/
def cstring (line : List UInt8) : Text := line.takeWhile (· ≠ 0)

/-- `strcasecmp` returns zero. -/
def strcasecmpZero (s t : Text) : Bool := s.map tolower = t.map tolower

/-- `strstr` does not return null. -/
def strstrFound (text needle : Text) : Bool := needle <:+: text

/-- The strings that `sscanf` stores; it returns their number. -/
def sscanf (text : Text) (format : List (Directive UInt8)) : List Text := scan isspace format text

/-- One call of `rio_readlineb` on the bytes still to come, of which at most `n`
are read: the line and what is left. -/
def rioReadlineb : Nat → List UInt8 → List UInt8 × List UInt8
  | 0, input => ([], input)
  | _ + 1, [] => ([], [])
  | n + 1, c :: input =>
      if c = newline then ([c], input)
      else (c :: (rioReadlineb n input).1, (rioReadlineb n input).2)

theorem rioReadlineb_length (n : Nat) (input : List UInt8) :
    (rioReadlineb n input).1.length + (rioReadlineb n input).2.length = input.length := by
  induction n, input using rioReadlineb.induct with
  | case1 input => simp [rioReadlineb]
  | case2 n => simp [rioReadlineb]
  | case3 n input => simp [rioReadlineb, Nat.add_comm]
  | case4 n c input other ih =>
      rw [rioReadlineb, if_neg other]
      simp only [List.length_cons]
      omega

/-- The lines that consecutive calls deliver until one returns zero. -/
def readLines (input : List UInt8) : List (List UInt8) :=
  let read := rioReadlineb (MAXBUF - 1) input
  if read.1 = [] then [] else read.1 :: readLines read.2
termination_by input.length
decreasing_by
  rename_i nonempty
  have length := rioReadlineb_length (MAXBUF - 1) input
  have positive : 0 < (rioReadlineb (MAXBUF - 1) input).1.length :=
    List.length_pos_of_ne_nil nonempty
  show (rioReadlineb (MAXBUF - 1) input).2.length < input.length
  omega

/-! ## The URL -/

/-- `"://"` -/
def separator : Text := ascii "://"

/-- `"%s %s %s"` -/
def requestFormat : List (Directive UInt8) := [.word, .space, .word, .space, .word]

/-- `"%[^:]://%[^/]%s"` -/
def absoluteFormat : List (Directive UInt8) :=
  [.before colon, .literal colon, .literal slash, .literal slash, .before slash, .word]

/-- `"%[^/]%s"` -/
def plainFormat : List (Directive UInt8) := [.before slash, .word]

/-- What the thread connects to and asks for. -/
structure Target where
  hostname : Text
  port : Text
  resource : Text
  deriving DecidableEq

/-- The strings stored while the URL is parsed, and the target unless the thread
ends. -/
structure Parsed where
  stores : Stores
  target : Option Target

/-- The port number is cut from `hostname` if present. -/
def pullPort (stores : Stores) (hostname resource : Text) : Parsed :=
  match hostname.dropWhile (· ≠ colon) with
  | [] => ⟨stores ++ [(.port, ascii "80")], some ⟨hostname, ascii "80", resource⟩⟩
  | _ :: port =>
      ⟨stores ++ [(.port, port)], some ⟨hostname.takeWhile (· ≠ colon), port, resource⟩⟩

/-- The parsing of the URL. -/
def parseUrl (url : Text) : Parsed :=
  if strstrFound url separator then
    let fields := sscanf url absoluteFormat
    let stores := [Buffer.protocol, .hostname, .resource].zip fields
    match fields with
    | [_, hostname, resource] => pullPort stores hostname resource
    | _ => ⟨stores, none⟩
  else
    let fields := sscanf url plainFormat
    let stores := [Buffer.hostname, .resource].zip fields
    match fields with
    | [hostname, resource] => pullPort stores hostname resource
    | _ => ⟨stores, none⟩

/-! ## The forwarded request -/

def userAgentHdr : Text := ascii
  "User-Agent: Mozilla/5.0 (X11; Linux x86_64; rv:10.0.3) Gecko/20120305 Firefox/10.0.3\r\n"

def connHdr : Text := ascii "Connection: close\r\n"

def proxyConnHdr : Text := ascii "Proxy-Connection: close\r\n"

def crlf : Text := ascii "\r\n"

/-- The contents of `req_fwd`, with the contents after each call so far. -/
structure ReqFwd where
  text : Text
  stores : Stores

/-- `strcpy(req_fwd, s)` -/
def strcpyFwd (s : Text) : ReqFwd := ⟨s, [(.reqFwd, s)]⟩

/-- `strcat(req_fwd, s)` -/
def strcatFwd (fwd : ReqFwd) (s : Text) : ReqFwd :=
  ⟨fwd.text ++ s, fwd.stores ++ [(.reqFwd, fwd.text ++ s)]⟩

/-- What is appended to the method before the header lines of the client. -/
def opening (t : Target) : List Text :=
  [ascii " ", t.resource, ascii " ", ascii "HTTP/1.0\r\n",
    ascii "Host: ", t.hostname, ascii ":", t.port, ascii "\r\n",
    userAgentHdr, connHdr, proxyConnHdr]

/-- The test for a header line that has been written already. -/
def alreadyWritten (req : Text) : Bool :=
  strstrFound req (ascii "Host:") || strstrFound req (ascii "User-Agent:") ||
    strstrFound req (ascii "Connection:") || strstrFound req (ascii "Proxy-Connection:")

/-- The loop over the header lines that `Rio_readlineb` delivers. -/
def headerLoop (fwd : ReqFwd) : List (List UInt8) → ReqFwd
  | [] => fwd
  | line :: rest =>
      let req := cstring line
      if req = crlf then strcatFwd fwd req
      else if alreadyWritten req then headerLoop fwd rest
      else headerLoop (strcatFwd fwd req) rest

/-- How the thread goes on: it ends, answers from the cache, or connects to a
server and sends it the request. -/
inductive Answer where
  | ended
  | fromCache
  | connects (hostname port reqFwd : Text)
  deriving DecidableEq

/-- The stored strings and how the thread goes on. -/
structure RequestRun where
  stores : Stores
  answer : Answer

/-- `run_thread` from the request line to the connection; `cached` says for which
URLs `cache_lookup` finds an object. -/
def runThread (cached : Text → Bool) (req : List UInt8) (headers : List (List UInt8)) :
    RequestRun :=
  let fields := sscanf (cstring req) requestFormat
  let stores := [Buffer.method, .url, .version].zip fields
  match fields with
  | [method, url, _] =>
      if cached url then ⟨stores, .fromCache⟩
      else if !strcasecmpZero method (ascii "GET") then ⟨stores, .ended⟩
      else
        let parsed := parseUrl url
        match parsed.target with
        | none => ⟨stores ++ parsed.stores, .ended⟩
        | some t =>
            let fwd := headerLoop ((opening t).foldl strcatFwd (strcpyFwd method)) headers
            ⟨stores ++ parsed.stores ++ fwd.stores, .connects t.hostname t.port fwd.text⟩
  | _ => ⟨stores, .ended⟩

/-- The same on the bytes that the client sends; without a line `req` is never
set. -/
def runThreadOn (cached : Text → Bool) (input : List UInt8) : Option RequestRun :=
  match readLines input with
  | [] => none
  | req :: headers => some (runThread cached req headers)

end SysProg.Proxy
