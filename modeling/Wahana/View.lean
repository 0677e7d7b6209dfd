import Wahana.Html

/-!
# view/view_nginx.php and view/view_uwsgi.php

The two result pages, as the templates print them. The line feed right
after a closing PHP tag is not printed, so the indentation in front of
such a tag runs into the next line that is printed.

The rows of both tables are printed by the same lines of template: a
number, a first cell with a class, and further cells. Every value is
printed as it stands in the database.
-/

namespace Wahana

/-- The text of a template, in pieces. -/
def template (pieces : List String) : Bytes := pieces.flatMap bytes

def blanks (n : Nat) : Bytes := List.replicate n (ch ' ')

/-- `explode("/", $path)` -/
def uriSegments (path : Bytes) : List Bytes := path.splitOn (ch '/')

/-! ## Rows -/

/-- `<td>value</td>` on a line of its own. -/
def cell (opening : String) (value : Bytes) : Bytes :=
  blanks 36 ++ (bytes opening ++ (value ++ bytes "</td>\n"))

/-- One turn of the `while` loop. -/
def tableRow (no : Nat) : List Bytes → Bytes
  | [] => []
  | value :: values =>
      blanks 32 ++ (bytes "<tr>\n" ++ (blanks 36 ++ (bytes "<th class=\"text-center\">"
        ++ (decimal no ++ (bytes "</th>\n" ++ (cell "<td class=\"text-center\">" value
          ++ (values.flatMap (cell "<td>") ++ (blanks 32 ++ (bytes "</tr>\n" ++ blanks 28)))))))))

/-- The `while` loop, with `$no` counting up. -/
def tableRows : (no : Nat) → List (List Bytes) → Bytes
  | _, [] => []
  | no, row :: rows => tableRow no row ++ tableRows (no + 1) rows

/-- The body of the table; the `if` around the loop prints its own
indentation. -/
def tableBody (rows : List (List Bytes)) : Bytes :=
  if 0 < rows.length then tableRows 1 rows ++ blanks 24 else []

structure NginxRow where
  (ip_address date_file method status_ms ping site_url rt uct uht urt gz : Bytes)

def NginxRow.columns (r : NginxRow) : List Bytes :=
  [r.ip_address, r.date_file, r.method, r.status_ms, r.ping, r.site_url, r.rt, r.uct, r.uht, r.urt,
   r.gz]

structure UwsgiRow where
  (address rss pid : Bytes)

def UwsgiRow.columns (r : UwsgiRow) : List Bytes := [r.address, r.rss, r.pid]

/-! ## Pages -/

def pageTop : Bytes :=
  template [
    "\n",
    "<!doctype html>\n",
    "<html lang=\"en\">\n",
    "\n",
    "<head>\n",
    "    <!-- Required meta tags -->\n",
    "    <meta charset=\"utf-8\">\n",
    "    <meta name=\"viewport\" ",
    "content=\"width=device-width, initial-scale=1, shrink-to-fit=no\">\n",
    "    <!-- Bootstrap CSS -->\n",
    "    <link rel=\"stylesheet\" ",
    "href=\"https://cdn.jsdelivr.net/npm/bootstrap@4.5.3/dist/css/bootstrap.min.css\" ",
    "integrity=\"sha384-TX8t27EcRE3e/", "ihU7zmQxVncDAy5uIKz4rEkgIXeMed4M0jlfIDPvg6uqKI2xXr2\" ",
    "crossorigin=\"anonymous\">\n",
    "    <link rel=\"stylesheet\" ",
    "href=\"https://cdn.datatables.net/1.10.25/css/jquery.dataTables.min.css\">\n",
    "\n",
    "    <title>Converting data in json</title>\n",
    "</head>\n",
    "\n",
    "<body>\n",
    "    <nav class=\"navbar navbar-expand-lg navbar-light bg-light\">\n",
    "        <div class=\"container\">\n",
    "            <button class=\"navbar-toggler\" type=\"button\" ",
    "data-toggle=\"collapse\" data-target=\"#navbarNav\" ",
    "aria-controls=\"navbarNav\" aria-expanded=\"false\" ", "aria-label=\"Toggle navigation\">\n",
    "                <span class=\"navbar-toggler-icon\"></span>\n",
    "            </button>\n",
    "            <div class=\"collapse navbar-collapse\" id=\"navbarNav\">\n",
    "                <ul class=\"navbar-nav\">\n"]

/-- The page from the end of the table on. -/
def pageBottom (id : String) : Bytes :=
  template [
    "                    </tbody>\n",
    "                </table>\n",
    "            </div>\n",
    "        </div>\n",
    "    </div>\n",
    "\n",
    "    <!-- Optional JavaScript; choose one of the two! -->\n",
    "\n",
    "    <!-- Option 1: jQuery and Bootstrap Bundle (includes Popper) -->\n",
    "    <script src=\"https://code.jquery.com/jquery-3.6.0.js\" ",
    "integrity=\"sha256-H+K7U5CnXl1h5ywQfKtSj8PCmoN9aaq30gDh27Xc0jk=\" ",
    "crossorigin=\"anonymous\"></script>\n",
    "    <script src=\"https://cdn.jsdelivr.net/npm/",
    "bootstrap@4.5.3/dist/js/bootstrap.bundle.min.js\" ",
    "integrity=\"sha384-ho+j7jyWK8fNQe+A12Hb8AhRq26LrZ/", "JpcUGGOn+Y7RsweNrtN/tE3MoK7ZeZDyx\" ",
    "crossorigin=\"anonymous\"></script>\n",
    "    <script src=\"https://cdn.datatables.net/1.10.25/js/",
    "jquery.dataTables.min.js\"></script>\n",
    "</body>\n",
    "\n",
    "</html>\n",
    "\n",
    "<script>\n",
    "    $(document).ready(function() \x7b\n"]
    ++ bytes "        $('#" ++ bytes id ++ bytes "').DataTable();\n"
    ++ bytes "    \x7d);\n</script>"

/-- `<a>` in the navigation bar: highlighted if it leads to the page itself. -/
def navLink (path : Bytes) (page label : String) : Bytes :=
  if (uriSegments path)[3]? = some (bytes page) then
    blanks 28 ++ bytes "<a class=\"nav-link active font-weight-bold\" href=\"" ++ bytes page
      ++ bytes "\">" ++ bytes label ++ bytes "</a>\n" ++ blanks 24
  else
    blanks 28 ++ bytes "<a class=\"nav-link\" href=\"" ++ bytes page
      ++ bytes "\">" ++ bytes label ++ bytes "</a>\n" ++ blanks 24

def nginxNav : Bytes :=
  template [
    "                    <li class=\"nav-item active\">\n"]
    ++ blanks 24

def nginxTable : Bytes :=
  template [
    "                    </li>\n",
    "                    <li class=\"nav-item\">\n",
    "                        <a class=\"nav-link\" href=\"view_uwsgi.php\">UWSGI</a>\n",
    "                    </li>\n",
    "                </ul>\n",
    "            </div>\n",
    "    </nav>\n",
    "    <div class=\"mt-2\">\n",
    "        <h1 class=\"text-center\">ALL Result</h1>\n",
    "        <!-- export csv -->\n",
    "        <form method=\"post\" action=\"../exportCSV_NGINX.php\">\n",
    "            <button type=\"submit\" name=\"export\" ", "value=\"CSV Export\" ",
    "class=\"btn btn-primary mb-3\">Convert CSV</button>\n",
    "        </form>\n",
    "        <!-- akhir export -->\n",
    "        <div class=\"row mt-3 mb-5 card shadow p-3 mb-5 bg-white rounded\">\n",
    "            <h3 class=\"text-center text-capitalize\">tabel data NGINX</h3>\n",
    "            <div class=\"col-md-12\">\n",
    "                <table class=\"table\" id=\"table_nginx\">\n",
    "                    <thead>\n",
    "                        <tr>\n",
    "                            <th scope=\"col\" class=\"text-center\">No</th>\n",
    "                            <th scope=\"col\" ", "class=\"text-center\">Ip Address</th>\n",
    "                            <th scope=\"col\">Date</th>\n",
    "                            <th scope=\"col\">Method</th>\n",
    "                            <th scope=\"col\">Status</th>\n",
    "                            <th scope=\"col\">Ping</th>\n",
    "                            <th scope=\"col\">Url</th>\n",
    "                            <th scope=\"col\">rt</th>\n",
    "                            <th scope=\"col\">uct</th>\n",
    "                            <th scope=\"col\">uht</th>\n",
    "                            <th scope=\"col\">urt</th>\n",
    "                            <th scope=\"col\">gz</th>\n",
    "                        </tr>\n",
    "                    </thead>\n",
    "                    <tbody id=\"body_nginx\">\n"]
    ++ blanks 24

def nginxBottom : Bytes :=
  pageBottom "table_nginx" ++ bytes "\n\n"
    ++ bytes "curl -XPUT http://localhost:9200/percobaan_json?pretty=true -d "
    ++ bytes "'\x7b\"mappings\":\x7b\"games\":\x7b\"properties\":\x7b\"title\":\x7b\"type\":\"text\"\x7d,"
    ++ bytes "\"description\":\x7b\"type\":\"text\"\x7d,\"rating\":\x7b\"type\":\"float\"\x7d,"
    ++ bytes "\"published_at\":\x7b\"type\":\"date\"\x7d\x7d\x7d\x7d\x7d,"
    ++ bytes "\x7b\"acknowledged\":true,\"shards_acknowledged\":true\x7d"

def nginxTop (path : Bytes) : Bytes :=
  pageTop ++ (nginxNav ++ (navLink path "view_nginx.php" "NGINX" ++ nginxTable))

/-- view_nginx.php: `path` is the path of the request, `rows` the result of
the query. -/
def viewNginx (path : Bytes) (rows : List NginxRow) : Bytes :=
  nginxTop path ++ (tableBody (rows.map NginxRow.columns) ++ nginxBottom)

def uwsgiNav : Bytes :=
  template [
    "                    <li class=\"nav-item\">\n",
    "                        <a class=\"nav-link\" href=\"view_nginx.php\">NGINX</a>\n",
    "                    </li>\n",
    "                    <li class=\"nav-item\">\n"]
    ++ blanks 24

def uwsgiTable : Bytes :=
  template [
    "                    </li>\n",
    "                </ul>\n",
    "            </div>\n",
    "            <div class=\"container\">\n",
    "    </nav>\n",
    "    <div class=\" container mt-2\">\n",
    "        <h1 class=\"text-center\">ALL Result</h1>\n",
    "        <!-- export csv -->\n",
    "        <form method=\"post\" action=\"../exportCSV_UWSGI.php\">\n",
    "            <button type=\"submit\" name=\"export\" ", "value=\"CSV Export\" ",
    "class=\"btn btn-primary mb-3\">Convert CSV</button>\n",
    "        </form>\n",
    "        <!-- akhir export -->\n",
    "        <div class=\"row mt-3 mb-5 card shadow p-3 mb-5 bg-white rounded\">\n",
    "            <h3 class=\"text-center text-capitalize\">tabel data UWSGI</h3>\n",
    "            <div class=\"col-md-12\">\n",
    "                <table class=\"table\" id=\"table_uwsgi\">\n",
    "                    <thead>\n",
    "                        <tr>\n",
    "                            <th scope=\"col\" class=\"text-center\">No</th>\n",
    "                            <th scope=\"col\" class=\"text-center\">Address</th>\n",
    "                            <th scope=\"col\">Rss</th>\n",
    "                            <th scope=\"col\">Pid</th>\n",
    "                        </tr>\n",
    "                    </thead>\n",
    "                    <tbody>\n"]
    ++ blanks 24

def uwsgiTop (path : Bytes) : Bytes :=
  pageTop ++ (uwsgiNav ++ (navLink path "view_uwsgi.php" "UWSGI" ++ uwsgiTable))

def uwsgiBottom : Bytes := pageBottom "table_uwsgi"

/-- view_uwsgi.php -/
def viewUwsgi (path : Bytes) (rows : List UwsgiRow) : Bytes :=
  uwsgiTop path ++ (tableBody (rows.map UwsgiRow.columns) ++ uwsgiBottom)

end Wahana
