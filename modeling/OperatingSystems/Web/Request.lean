import OperatingSystems.Web.Server
import Mathlib.Data.List.Infix

/-!
# What the web server answers to a request

The parts of `request.c` and `server.c` that read a request line and the file system and write the
response: `requestParseURI`, `requestError`, `requestServeStatic`, `requestServeDynamic`,
`getRequestFileName` and `requestHandleWorker`.  A string is the list of its bytes without the
terminating zero.

* `FileSystem` : what the server sees of its files, with the programs it runs as a function from
  their arguments to their output.
* `requestHandleWorker` : the response to a request line; `none` when a wrapper calls `exit`.
* `GetRequest` : a well-formed request.
* `Servable` : the file of the request is there, and can be mapped if it is to be sent.
* `requestHandleWorker_isSome` : `Servable` requests have a response.
-/

namespace OperatingSystems

namespace Web

/-- The bytes of a text. -/
def ascii (s : String) : List UInt8 := s.toList.map fun c => UInt8.ofNat c.toNat

def MAXLINE : ℕ := 8192

def MAXBUF : ℕ := 8192

/-- A file, as `stat`, `open` and `mmap` show it. -/
structure File where
  /-- `st_size` -/
  size : ℕ
  /-- `S_ISREG` -/
  isReg : Bool
  /-- `S_IRUSR` -/
  isRusr : Bool
  /-- `S_IXUSR` -/
  isXusr : Bool
  /-- What the server can read of the file; `none` if it may not open it. -/
  contents : Option (List UInt8)
  size_eq : ∀ c ∈ contents, c.length = size

/-- The files the server can reach. -/
structure FileSystem where
  /-- `stat`: the file of a name. -/
  stat : List UInt8 → Option File
  /-- What a CGI program writes when it runs with a `QUERY_STRING`. -/
  cgi : List UInt8 → List UInt8 → List UInt8

/-! ### The request line -/

/-- `isspace` -/
def isSpace (c : UInt8) : Bool := c == 32 || (9 ≤ c && c ≤ 13)

/-- The words of a line, as `sscanf` reads them with `%s`. -/
def words (line : List UInt8) : List (List UInt8) := (line.splitOnP isSpace).filter (· ≠ [])

/-- `tolower` -/
def toLower (c : UInt8) : UInt8 := if 65 ≤ c ∧ c ≤ 90 then c + 32 else c

/-- `strcasecmp` finds no difference. -/
def sameCase (s t : List UInt8) : Bool := s.map toLower == t.map toLower

/-- What `requestParseURI` computes. -/
structure ParsedURI where
  isStatic : Bool
  filename : List UInt8
  cgiargs : List UInt8

def requestParseURI (uri : List UInt8) : ParsedURI :=
  if ¬ ascii "cgi" <:+: uri then
    { isStatic := true
      filename := ascii "." ++ uri ++ if uri.getLast? = some 47 then ascii "home.html" else []
      cgiargs := [] }
  else
    -- the program is what stands before the first question mark
    { isStatic := false
      filename := ascii "." ++ uri.takeWhile (· ≠ 63)
      cgiargs := (uri.dropWhile (· ≠ 63)).tail }

/-- The method and the parsed address of a line.  A word that is missing counts as empty: the code
leaves its buffer as it was. -/
def scanRequest (line : List UInt8) : List UInt8 × ParsedURI :=
  ((words line).getD 0 [], requestParseURI ((words line).getD 1 []))

/-! ### The responses -/

/-- The texts of an error. -/
structure ErrorText where
  errnum : String
  shortmsg : String
  longmsg : String

def notImplemented : ErrorText :=
  ⟨"501", "Not Implemented", "CS537 Server does not implement this method"⟩

def notFound : ErrorText := ⟨"404", "Not found", "CS537 Server could not find this file"⟩

def forbiddenRead : ErrorText := ⟨"403", "Forbidden", "CS537 Server could not read this file"⟩

def forbiddenRun : ErrorText := ⟨"403", "Forbidden", "CS537 Server could not run this CGI program"⟩

/-- The page `requestError` prepares. -/
def errorBody (cause : List UInt8) (e : ErrorText) : List UInt8 :=
  ascii "<html><title>CS537 Error</title><body bgcolor=fffff>\r\n" ++
    ascii (e.errnum ++ ": " ++ e.shortmsg ++ "\r\n") ++
    ascii ("<p>" ++ e.longmsg ++ ": ") ++ cause ++ ascii "\r\n" ++
    ascii "<hr>CS537 Web Server\r\n"

def requestError (cause : List UInt8) (e : ErrorText) : List UInt8 :=
  ascii ("HTTP/1.0 " ++ e.errnum ++ " " ++ e.shortmsg ++ "\r\n") ++
    ascii "Content-Type: text/html\r\n" ++
    ascii ("Content-Length: " ++ toString (errorBody cause e).length ++ "\r\n\r\n") ++
    errorBody cause e

def requestGetFiletype (filename : List UInt8) : String :=
  if ascii ".html" <:+: filename then "text/html"
  else if ascii ".gif" <:+: filename then "image/gif"
  else if ascii ".jpg" <:+: filename then "image/jpeg"
  else "text/plain"

/-- `requestServeStatic`.  `Open` exits if the file may not be opened, and `Mmap` if the size,
which is passed as an `int`, is not positive. -/
def requestServeStatic (filename : List UInt8) (f : File) : Option (List UInt8) :=
  match f.contents with
  | none => none
  | some contents =>
    let filesize := toInt f.size
    if 0 < filesize then
      some (ascii ("HTTP/1.0 200 OK\r\nServer: CS537 Web Server\r\nContent-Length: " ++
        toString filesize ++ "\r\nContent-Type: " ++ requestGetFiletype filename ++ "\r\n\r\n") ++
        contents.take filesize.toNat)
    else none

/-- `requestServeDynamic`: the server writes the first lines, the program the rest. -/
def requestServeDynamic (fs : FileSystem) (filename cgiargs : List UInt8) : List UInt8 :=
  ascii "HTTP/1.0 200 OK\r\nServer: CS537 Web Server\r\n" ++ fs.cgi filename cgiargs

/-- `requestHandleWorker`: the response to the request line `buff`, and `none` if the process exits
instead. -/
def requestHandleWorker (fs : FileSystem) (buff : List UInt8) : Option (List UInt8) :=
  let (method, u) := scanRequest buff
  if ¬ sameCase method (ascii "GET") then some (requestError method notImplemented)
  else
    match fs.stat u.filename with
    | none => some (requestError u.filename notFound)
    | some f =>
      if u.isStatic then
        if ¬ f.isReg ∨ ¬ f.isRusr then some (requestError u.filename forbiddenRead)
        else requestServeStatic u.filename f
      else
        if ¬ f.isReg ∨ ¬ f.isXusr then some (requestError u.filename forbiddenRun)
        else some (requestServeDynamic fs u.filename u.cgiargs)

/-- `getRequestFileName` and the `stat` of the SFF policy: what the master learns of a request. -/
def getRequest (fs : FileSystem) (line : List UInt8) : Request where
  buff := line
  filename := (scanRequest line).2.filename
  fileStat := (fs.stat (scanRequest line).2.filename).map fun f => (f.size : ℤ)

/-! ### Well-formed requests -/

/-- A well-formed request: a line of three words of which the first is `GET`, short enough for the
buffers that the line, its file name and an error page about it are put into.  (The header lines,
which the server skips, end with an empty line.) -/
structure GetRequest where
  line : List UInt8
  three_words : (words line).length = 3
  isGet : sameCase (scanRequest line).1 (ascii "GET")
  no_zero : 0 ∉ line
  line_fits : line.length < MAXLINE
  filename_fits : (scanRequest line).2.filename.length < MAXLINE
  body_fits : ∀ e ∈ [notFound, forbiddenRead, forbiddenRun],
    (errorBody (scanRequest line).2.filename e).length < MAXBUF

/-- The server can answer a request for this file: it is there, and if its contents are to be sent
then it can be opened and its size, as an `int`, is positive. -/
def Servable (fs : FileSystem) (r : GetRequest) : Prop :=
  let u := (scanRequest r.line).2
  ∃ f, fs.stat u.filename = some f ∧
    (u.isStatic → f.isReg → f.isRusr → f.contents.isSome ∧ 0 < toInt f.size)

theorem requestServeStatic_isSome {filename : List UInt8} {f : File} :
    (requestServeStatic filename f).isSome ↔ f.contents.isSome ∧ 0 < toInt f.size := by
  unfold requestServeStatic
  cases f.contents with
  | none => simp
  | some c =>
    by_cases h : 0 < toInt f.size <;> simp [h]

/-- **The requests that are answered**, among those whose file is there: all but those for a
regular readable file which cannot be opened or mapped. -/
theorem requestHandleWorker_isSome {fs : FileSystem} {r : GetRequest} {f : File}
    (hf : fs.stat (scanRequest r.line).2.filename = some f) :
    (requestHandleWorker fs r.line).isSome ↔
      ((scanRequest r.line).2.isStatic → f.isReg → f.isRusr →
        f.contents.isSome ∧ 0 < toInt f.size) := by
  have hget : ¬ ¬ sameCase (scanRequest r.line).1 (ascii "GET") := not_not.2 r.isGet
  simp only [requestHandleWorker, hf, if_neg hget]
  by_cases hst : (scanRequest r.line).2.isStatic
  · simp only [hst, ↓reduceIte, true_imp_iff]
    split
    · next hno =>
      refine iff_of_true rfl fun hreg hr => ?_
      simp [hreg, hr] at hno
    · next hyes =>
      simp only [Bool.not_eq_true, not_or, Bool.not_eq_false] at hyes
      simp only [hyes.1, hyes.2, true_imp_iff]
      exact requestServeStatic_isSome
  · simp only [hst, Bool.false_eq_true, ↓reduceIte, false_imp_iff, iff_true]
    split <;> rfl

end Web

end OperatingSystems
