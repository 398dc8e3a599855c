import HttpWire.Text.Utf8
/-!
# Methods

The table of request methods: those of HTTP itself and of the WebDAV, CalDAV and UPnP families.
Names are told apart by letter case, so `get` names no method.
-/

namespace HttpWire

/-- A request method. -/
inductive Method where
  | delete | get | head | post | put | connect | options | trace | copy | lock | mkcol | move
  | propfind | proppatch | search | unlock | bind | rebind | unbind | acl | report | mkactivity
  | checkout | merge | mSearch | notify | subscribe | unsubscribe | patch | purge | mkcalendar
  | link | unlink | source
  deriving DecidableEq, Repr

namespace Method

/-- Every method of the table. -/
def all : List Method :=
  [delete, get, head, post, put, connect, options, trace, copy, lock, mkcol, move, propfind,
    proppatch, search, unlock, bind, rebind, unbind, acl, report, mkactivity, checkout, merge,
    mSearch, notify, subscribe, unsubscribe, patch, purge, mkcalendar, link, unlink, source]

/-- The name as the request line spells it. -/
def name : Method → String
  | delete => "DELETE"
  | get => "GET"
  | head => "HEAD"
  | post => "POST"
  | put => "PUT"
  | connect => "CONNECT"
  | options => "OPTIONS"
  | trace => "TRACE"
  | copy => "COPY"
  | lock => "LOCK"
  | mkcol => "MKCOL"
  | move => "MOVE"
  | propfind => "PROPFIND"
  | proppatch => "PROPPATCH"
  | search => "SEARCH"
  | unlock => "UNLOCK"
  | bind => "BIND"
  | rebind => "REBIND"
  | unbind => "UNBIND"
  | acl => "ACL"
  | report => "REPORT"
  | mkactivity => "MKACTIVITY"
  | checkout => "CHECKOUT"
  | merge => "MERGE"
  | mSearch => "M-SEARCH"
  | notify => "NOTIFY"
  | subscribe => "SUBSCRIBE"
  | unsubscribe => "UNSUBSCRIBE"
  | patch => "PATCH"
  | purge => "PURGE"
  | mkcalendar => "MKCALENDAR"
  | link => "LINK"
  | unlink => "UNLINK"
  | source => "SOURCE"

/-- The name in wire bytes. -/
def bytes (m : Method) : Bytes := Utf8.encode m.name

/-- The method of a name. -/
def ofName? (name : String) : Option Method := all.find? fun m => m.name == name

/-- The method that a token of the request line names. -/
def ofBytes? (token : Bytes) : Option Method := all.find? fun m => m.bytes == token

end Method

end HttpWire
