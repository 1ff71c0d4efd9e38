import ColabEdit.Browser.BigTags
import ColabEdit.Browser.Caret
import ColabEdit.Browser.Client
import ColabEdit.Browser.Desk
import ColabEdit.Browser.Editor
import ColabEdit.Browser.Keys
import ColabEdit.Browser.Paste
import ColabEdit.Browser.Sender
import ColabEdit.Browser.Sentinels
import ColabEdit.Browser.StringTags
import ColabEdit.Browser.Typing
import ColabEdit.Server.ChangeId
import ColabEdit.Server.Cursor
import ColabEdit.Server.DocKeys
import ColabEdit.Server.Failures
import ColabEdit.Server.Logins
import ColabEdit.Server.Ownership
import ColabEdit.Server.Seats
import ColabEdit.Server.Socket
import ColabEdit.Session.Allocation
import ColabEdit.Session.Arithmetic
import ColabEdit.Session.Convergence
import ColabEdit.Session.Decoding
import ColabEdit.Session.Desks
import ColabEdit.Session.Pieces
import ColabEdit.Session.Screen
import ColabEdit.Session.Settling
import ColabEdit.Session.Window
